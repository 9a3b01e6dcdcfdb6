import Mathlib.Order.Nat

/-! Loops whose number of rounds is not known beforehand: a round goes on to
another state or leaves with a result. -/

namespace CppBase.Lib

variable {σ ρ : Type}

/-- At most `n` rounds of the loop; `none` when it has not been left by then. -/
def loop (round : σ → σ ⊕ ρ) : ℕ → σ → Option ρ
  | 0, _ => none
  | n + 1, s =>
    match round s with
    | .inl t => loop round n t
    | .inr r => some r

variable {round : σ → σ ⊕ ρ} {s t : σ} {r : ρ} {n m : ℕ}

theorem loop_goes (h : round s = .inl t) : loop round (n + 1) s = loop round n t := by
  rw [loop, h]

theorem loop_leaves (h : round s = .inr r) : loop round (n + 1) s = some r := by
  rw [loop, h]

theorem loop_mono (h : loop round n s = some r) (hle : n ≤ m) : loop round m s = some r := by
  induction n generalizing s m with
  | zero => cases h
  | succ n ih =>
    obtain ⟨m, rfl⟩ := Nat.exists_eq_add_of_le' (Nat.le_trans (Nat.le_add_left 1 n) hle)
    cases hr : round s with
    | inl t =>
      rw [loop_goes hr] at h ⊢
      exact ih h (Nat.le_of_succ_le_succ hle)
    | inr r' =>
      rw [loop_leaves hr] at h ⊢
      exact h

/-- Total correctness: every round that goes on keeps `I`, makes the variant smaller and
hands back what holds of the result; every round that leaves establishes it. -/
theorem loop_rule {I : σ → Prop} (variant : σ → ℕ) {Q : σ → ρ → Prop}
    (hgo : ∀ s t, I s → round s = .inl t → I t ∧ variant t < variant s ∧ ∀ r, Q t r → Q s r)
    (hleave : ∀ s r, I s → round s = .inr r → Q s r) (hs : I s) : ∃ n r, loop round n s = some r ∧ Q s r := by
  generalize hv : variant s = v
  induction v using Nat.strongRecOn generalizing s with
  | ind v ih =>
    cases hr : round s with
    | inl t =>
      obtain ⟨ht, hlt, hback⟩ := hgo s t hs hr
      obtain ⟨n, r, hloop, hq⟩ := ih (variant t) (hv ▸ hlt) ht rfl
      exact ⟨n + 1, r, (loop_goes hr).trans hloop, hback r hq⟩
    | inr r => exact ⟨1, r, loop_leaves hr, hleave s r hs hr⟩

/-- A loop that goes on in every state of `I` is never left. -/
theorem loop_never {I : σ → Prop} (hgo : ∀ s, I s → ∃ t, round s = .inl t ∧ I t) (hs : I s) (n : ℕ) :
    loop round n s = none := by
  induction n generalizing s with
  | zero => rfl
  | succ n ih =>
    obtain ⟨t, ht, hI⟩ := hgo s hs
    rw [loop_goes ht]
    exact ih hI

end CppBase.Lib
