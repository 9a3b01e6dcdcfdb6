import Mathlib.Data.List.Nodup

/-! Loops whose rounds each touch one index of the state. -/

namespace CppBase.Lib

variable {σ ι κ β : Type}

/-- A loop over distinct indices, where the round for `i` applies `F` at `i`
and leaves every other index alone, applies `F` at each of them once. -/
theorem foldl_pointwise [DecidableEq ι] {step : σ → ι → σ} {r : σ → ι → β} {F : β → β}
    (hself : ∀ s i, r (step s i) i = F (r s i))
    (hframe : ∀ s i k, k ≠ i → r (step s i) k = r s k)
    {l : List ι} (hl : l.Nodup) (s : σ) (k : ι) :
    r (l.foldl step s) k = if k ∈ l then F (r s k) else r s k := by
  induction l generalizing s with
  | nil => simp
  | cons i l ih =>
    obtain ⟨hi, hl⟩ := List.nodup_cons.mp hl
    rw [List.foldl_cons, ih hl]
    by_cases hk : k = i
    · subst hk
      simp [hi, hself]
    · simp [hk, hframe s i k hk]

/-- A loop over elements with distinct keys, where the round for `i` applies `F i` at the key of `i` and leaves
every other key alone. -/
theorem foldl_keyed {key : ι → κ} {step : σ → ι → σ} {r : σ → κ → β} {F : ι → β → β}
    (hself : ∀ s i, r (step s i) (key i) = F i (r s (key i)))
    (hframe : ∀ s i k, k ≠ key i → r (step s i) k = r s k) {l : List ι} (hl : (l.map key).Nodup) (s : σ) :
    (∀ i ∈ l, r (l.foldl step s) (key i) = F i (r s (key i))) ∧ ∀ k ∉ l.map key, r (l.foldl step s) k = r s k := by
  induction l generalizing s with
  | nil => simp
  | cons j l ih =>
    rw [List.map_cons] at hl ⊢
    obtain ⟨hj, hl⟩ := List.nodup_cons.mp hl
    obtain ⟨hin, hout⟩ := ih hl (step s j)
    refine ⟨fun i hi => ?_, fun k hk => ?_⟩
    · rcases List.mem_cons.mp hi with rfl | hi
      · rw [List.foldl_cons, hout _ hj, hself]
      · have hne : key i ≠ key j := fun heq => hj (heq ▸ List.mem_map_of_mem hi)
        rw [List.foldl_cons, hin i hi, hframe s j _ hne]
    · rw [List.mem_cons, not_or] at hk
      rw [List.foldl_cons, hout k hk.2, hframe s j k hk.1]

/-- What every round of the loop leaves alone, the loop leaves alone. -/
theorem foldl_frame_of_mem {step : σ → ι → σ} {r : σ → β} {l : List ι} (h : ∀ s, ∀ i ∈ l, r (step s i) = r s)
    (s : σ) : r (l.foldl step s) = r s := by
  induction l generalizing s with
  | nil => rfl
  | cons i l ih =>
    rw [List.foldl_cons, ih fun s j hj => h s j (List.mem_cons_of_mem i hj), h s i List.mem_cons_self]

theorem foldl_frame {step : σ → ι → σ} {r : σ → β} (h : ∀ s i, r (step s i) = r s) (l : List ι) (s : σ) :
    r (l.foldl step s) = r s :=
  foldl_frame_of_mem (fun s i _ => h s i) s

/-- A round keeps `I` exactly if `P` holds at it: so does the loop, with `P` at every round. -/
theorem foldl_iff {step : σ → ι → σ} {I : σ → Prop} {P : σ → ι → Prop} (h : ∀ s i, I (step s i) ↔ I s ∧ P s i)
    (l : List ι) (s : σ) :
    I (l.foldl step s) ↔ I s ∧ ∀ pre i post, l = pre ++ i :: post → P (pre.foldl step s) i := by
  induction l generalizing s with
  | nil => simp
  | cons i l ih =>
    rw [List.foldl_cons, ih, h, and_assoc]
    refine and_congr_right fun _ => ⟨?_, fun hall => ?_⟩
    · rintro ⟨hi, hrest⟩ pre j post heq
      cases pre with
      | nil =>
        cases heq
        exact hi
      | cons k pre =>
        cases heq
        exact hrest pre j post rfl
    · exact ⟨hall [] i l rfl, fun pre j post heq => hall (i :: pre) j post (by rw [heq]; rfl)⟩

end CppBase.Lib
