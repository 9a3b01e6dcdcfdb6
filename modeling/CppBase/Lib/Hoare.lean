import CppBase.Lib.Exec

/-! Triples for programs that may fail: what holds after a return and what holds
after a failure. -/

namespace CppBase.Lib

variable {ε σ α β : Type}

/-- From a state with `P`, the program returns with `Q` or fails with `E`. -/
def Triple (P : σ → Prop) (m : Prog ε σ α) (Q : α → σ → Prop) (E : ε → σ → Prop) : Prop :=
  ∀ s, P s →
    match exec m s with
    | (.ok a, t) => Q a t
    | (.error e, t) => E e t

variable {P : σ → Prop} {Q : α → σ → Prop} {R : β → σ → Prop} {E : ε → σ → Prop} {m : Prog ε σ α}

theorem triple_pure {a : α} (h : ∀ s, P s → Q a s) : Triple P (pure a) Q E := fun s hs => h s hs

theorem triple_fails {e : ε} (h : ∀ s, P s → E e s) : Triple P (fails e : Prog ε σ α) Q E := fun s hs => h s hs

theorem triple_gets {f : σ → α} (h : ∀ s, P s → Q (f s) s) : Triple P (gets f) Q E := fun s hs => h s hs

theorem Triple.bind {f : α → Prog ε σ β} (hm : Triple P m Q E) (hf : ∀ a, Triple (Q a) (f a) R E) :
    Triple P (m >>= f) R E := by
  intro s hs
  have h := hm s hs
  rw [exec_bind]
  generalize exec m s = r at h ⊢
  obtain ⟨o, t⟩ := r
  cases o with
  | ok a => exact hf a t h
  | error e => exact h

theorem Triple.conseq {P' : σ → Prop} {Q' : α → σ → Prop} (hm : Triple P m Q E) (hP : ∀ s, P' s → P s)
    (hQ : ∀ a s, Q a s → Q' a s) : Triple P' m Q' E := by
  intro s hs
  have h := hm s (hP s hs)
  generalize exec m s = r at h ⊢
  obtain ⟨o, t⟩ := r
  cases o with
  | ok a => exact hQ a t h
  | error e => exact h

theorem triple_ite {c : Prop} [Decidable c] {n : Prog ε σ α} (hm : c → Triple P m Q E) (hn : ¬ c → Triple P n Q E) :
    Triple P (if c then m else n) Q E := by
  by_cases h : c
  · rw [if_pos h]
    exact hm h
  · rw [if_neg h]
    exact hn h

end CppBase.Lib
