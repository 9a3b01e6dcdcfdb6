import Mathlib.Data.List.Infix
import Mathlib.Order.Nat

/-! Cutting a list at the leftmost occurrences of another one that do not overlap,
and joining the pieces again. -/

namespace CppBase.Lib

variable {α : Type}

/-- `d` occurs in `s` at `k` and nowhere before. -/
structure Leftmost (d s : List α) (k : ℕ) : Prop where
  occurs : d <+: s.drop k
  first : ∀ i < k, ¬ d <+: s.drop i

/-- The pieces of `s` between the cuts. -/
inductive Cuts (d : List α) : List α → List (List α) → Prop
  | last {s : List α} : ¬ d <:+: s → Cuts d s [s]
  | cut {s : List α} {k : ℕ} {ps : List (List α)} :
      Leftmost d s k → Cuts d (s.drop (k + d.length)) ps → Cuts d s (s.take k :: ps)

variable {d s : List α} {k k' : ℕ} {p : List α} {ps qs : List (List α)}

section Occurrences

theorem Leftmost.unique (h : Leftmost d s k) (h' : Leftmost d s k') : k = k' := by
  obtain hlt | heq | hgt := Nat.lt_trichotomy k k'
  · exact absurd h.occurs (h'.first k hlt)
  · exact heq
  · exact absurd h'.occurs (h.first k' hgt)

theorem infix_of_prefix_drop (h : d <+: s.drop k) : d <:+: s :=
  h.isInfix.trans (List.drop_suffix k s).isInfix

theorem exists_prefix_drop (h : d <:+: s) : ∃ k ≤ s.length, d <+: s.drop k := by
  obtain ⟨a, b, rfl⟩ := h
  refine ⟨a.length, by simp, b, ?_⟩
  rw [List.append_assoc, List.drop_left]

theorem Leftmost.append (h : Leftmost d s k) : s.take k ++ d ++ s.drop (k + d.length) = s := by
  obtain ⟨t, ht⟩ := h.occurs
  rw [← List.drop_drop, ← ht, List.drop_left, List.append_assoc, ht, List.take_append_drop]

/-- The delimiter does not occur in what is before its leftmost occurrence. -/
theorem Leftmost.not_infix_take (h : Leftmost d s k) (hd : d ≠ []) : ¬ d <:+: s.take k := by
  intro hin
  obtain ⟨i, -, hi⟩ := exists_prefix_drop hin
  have hpos : 0 < d.length := List.length_pos_iff.mpr hd
  have hlen := hi.length_le
  rw [List.length_drop, List.length_take] at hlen
  refine h.first i (by omega) (hi.trans ?_)
  rw [List.drop_take]
  exact List.take_prefix _ _

end Occurrences

section Pieces

theorem Cuts.ne_nil (h : Cuts d s ps) : ps ≠ [] := by
  cases h <;> simp

theorem Cuts.not_infix (h : Cuts d s ps) (hd : d ≠ []) (hp : p ∈ ps) : ¬ d <:+: p := by
  induction h with
  | last hno =>
    obtain rfl := List.mem_singleton.mp hp
    exact hno
  | cut hleft _ ih =>
    obtain rfl | hp := List.mem_cons.mp hp
    · exact hleft.not_infix_take hd
    · exact ih hp

theorem Cuts.join (h : Cuts d s ps) : d.intercalate ps = s := by
  induction h with
  | last => exact List.intercalate_singleton
  | cut hleft hrest ih => rw [List.intercalate_cons_of_ne_nil hrest.ne_nil, ih, hleft.append]

theorem Cuts.unique (h : Cuts d s ps) (h' : Cuts d s qs) : ps = qs := by
  induction h generalizing qs with
  | last hno =>
    cases h' with
    | last => rfl
    | cut hleft => exact absurd (infix_of_prefix_drop hleft.occurs) hno
  | cut hleft _ ih =>
    cases h' with
    | last hno => exact absurd (infix_of_prefix_drop hleft.occurs) hno
    | cut hleft' hrest' =>
      obtain rfl := hleft.unique hleft'
      rw [ih hrest']

theorem cuts_nil_iff (hd : d ≠ []) : Cuts d [] ps ↔ ps = [[]] := by
  have hno : ¬ d <:+: [] := fun h => hd (List.infix_nil.mp h)
  constructor
  · exact fun h => h.unique (.last hno)
  · rintro rfl
    exact .last hno

end Pieces

section Trailing

/-- The last cut ends at the end of the list. -/
def EndsInCut (d s : List α) : Prop := ∃ ps, ps ≠ [] ∧ Cuts d s (ps ++ [[]])

/-- All pieces but an empty last one. -/
def Kept (ps r : List (List α)) : Prop := ps = r ++ [[]] ∨ ps = r ∧ r.getLast? ≠ some []

theorem Kept.cons (h : Kept ps qs) (hne : ps ≠ []) : Kept (p :: ps) (p :: qs) := by
  obtain rfl | ⟨rfl, hlast⟩ := h
  · exact .inl rfl
  · refine .inr ⟨rfl, ?_⟩
    rwa [List.getLast?_cons_of_ne_nil hne]

theorem Kept.mem (h : Kept ps qs) (hp : p ∈ qs) : p ∈ ps := by
  obtain rfl | ⟨rfl, -⟩ := h
  · exact List.mem_append_left _ hp
  · exact hp

theorem Kept.nil_iff (h : Kept ps qs) (hcuts : Cuts d s ps) (hd : d ≠ []) : qs = [] ↔ s = [] := by
  constructor
  · rintro rfl
    obtain rfl | ⟨rfl, -⟩ := h
    · exact hcuts.join.symm
    · exact absurd rfl hcuts.ne_nil
  · rintro rfl
    obtain rfl := (cuts_nil_iff hd).mp hcuts
    obtain heq | ⟨rfl, hlast⟩ := h
    · simpa using heq
    · exact absurd rfl hlast

theorem intercalate_concat_nil (hne : ps ≠ []) : d.intercalate (ps ++ [[]]) = d.intercalate ps ++ d := by
  induction ps with
  | nil => exact absurd rfl hne
  | cons p ps ih =>
    cases ps with
    | nil => simp [List.intercalate_cons_cons]
    | cons q ps =>
      rw [List.intercalate_cons_cons, List.append_assoc _ _ d, ← ih (by simp), List.cons_append, List.cons_append,
        List.intercalate_cons_cons]

/-- Joining what is kept gives the list, or the list without a trailing `d`. -/
theorem Kept.join (h : Kept ps qs) (hcuts : Cuts d s ps) (hd : d ≠ []) :
    (d.intercalate qs ++ d = s ↔ EndsInCut d s) ∧ (d.intercalate qs = s ↔ ¬ EndsInCut d s) := by
  have hone : ∀ t : List α, t ++ d ≠ t := fun t => by simpa using hd
  by_cases hend : EndsInCut d s
  · obtain ⟨rs, hrs, hcut⟩ := hend
    obtain rfl := hcuts.unique hcut
    obtain heq | ⟨rfl, hlast⟩ := h
    · obtain rfl := List.append_cancel_right heq
      have hjoin := hcut.join
      rw [intercalate_concat_nil hrs] at hjoin
      exact ⟨iff_of_true hjoin ⟨rs, hrs, hcut⟩,
        iff_of_false (fun heq => hone _ (hjoin.trans heq.symm)) (not_not.mpr ⟨rs, hrs, hcut⟩)⟩
    · simp at hlast
  · have hjoin : d.intercalate qs = s := by
      obtain rfl | ⟨rfl, -⟩ := h
      · -- an empty last piece that is not behind a cut is the whole list
        have hqs : qs = [] := by
          by_contra hqs
          exact hend ⟨qs, hqs, hcuts⟩
        subst hqs
        exact hcuts.join
      · exact hcuts.join
    exact ⟨iff_of_false (fun heq => hone _ (heq.trans hjoin.symm)) hend, iff_of_true hjoin hend⟩

end Trailing

end CppBase.Lib
