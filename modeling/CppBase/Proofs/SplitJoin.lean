import CppBase.Lib.Cutting
import CppBase.Spec.StrUtil

/-! `split` cuts at the leftmost occurrences of the delimiter, and joining undoes it
but for an empty piece at the end. -/

namespace CppBase.Utility.StrUtil

open CppBase.Lib

variable {s d : List UInt8} {pos i : ℕ}

section Find

theorem firstFrom_eq_some {q : ℕ → Bool} {stop : ℕ} :
    firstFrom q pos stop = some i ↔ q i = true ∧ (pos ≤ i ∧ i < stop) ∧ ∀ j, pos ≤ j → j < i → q j = false := by
  simp only [firstFrom, List.find?_range'_eq_some, List.mem_range'_1, Bool.not_eq_true']
  grind

theorem firstFrom_eq_none {q : ℕ → Bool} {stop : ℕ} :
    firstFrom q pos stop = none ↔ ∀ j, pos ≤ j → j < stop → q j = false := by
  simp only [firstFrom, List.find?_range'_eq_none, Bool.not_eq_true']
  grind

theorem leftmost_of_find (h : find s d pos = some i) : ∃ k, i = pos + k ∧ Leftmost d (s.drop pos) k := by
  obtain ⟨hi, ⟨hpos, -⟩, hbefore⟩ := firstFrom_eq_some.mp h
  refine ⟨i - pos, by omega, ?_, fun j hj => ?_⟩
  · rw [List.drop_drop, Nat.add_sub_cancel' hpos]
    exact List.isPrefixOf_iff_prefix.mp hi
  · rw [List.drop_drop, ← List.isPrefixOf_iff_prefix, hbefore (pos + j) (by omega) (by omega)]
    exact Bool.false_ne_true

theorem not_infix_of_find (h : find s d pos = none) (hpos : pos ≤ s.length) : ¬ d <:+: s.drop pos := by
  intro hin
  obtain ⟨k, hk, hocc⟩ := exists_prefix_drop hin
  rw [List.length_drop] at hk
  have hnot := firstFrom_eq_none.mp h (pos + k) (by omega) (by omega)
  rw [List.drop_drop, ← List.isPrefixOf_iff_prefix, hnot] at hocc
  cases hocc

end Find

section Rounds

/-- What the loop adds to `ret` from `pos` on. -/
def Adds (s d : List UInt8) (v : ℕ × List (List UInt8)) (r : List (List UInt8)) : Prop :=
  ∃ ps qs, Cuts d (s.drop v.1) ps ∧ Kept ps qs ∧ r = v.2 ++ qs

variable {v w : ℕ × List (List UInt8)} {r : List (List UInt8)}

theorem splitRound_goes (h : splitRound s d v = .inl w) :
    v.1 < s.length ∧ ∃ k, Leftmost d (s.drop v.1) k ∧
      w = (v.1 + k + d.length, v.2 ++ [(s.drop v.1).take k]) := by
  unfold splitRound at h
  split_ifs at h with hlt
  cases hfind : find s d v.1 with
  | none => simp [hfind] at h
  | some i =>
    obtain ⟨k, rfl, hleft⟩ := leftmost_of_find hfind
    refine ⟨hlt, k, hleft, ?_⟩
    simpa [hfind, substr] using h.symm

theorem splitRound_leaves (h : splitRound s d v = .inr r) :
    s.length ≤ v.1 ∧ r = v.2 ∨ v.1 < s.length ∧ ¬ d <:+: s.drop v.1 ∧ r = v.2 ++ [s.drop v.1] := by
  unfold splitRound at h
  split_ifs at h with hlt
  · right
    cases hfind : find s d v.1 with
    | none => exact ⟨hlt, not_infix_of_find hfind (Nat.le_of_lt hlt), by simpa [hfind] using h.symm⟩
    | some i => simp [hfind] at h
  · exact .inl ⟨Nat.not_lt.mp hlt, (Sum.inr.inj h).symm⟩

theorem Adds.goes (h : splitRound s d v = .inl w) (hr : Adds s d w r) : Adds s d v r := by
  obtain ⟨-, k, hleft, rfl⟩ := splitRound_goes h
  obtain ⟨ps, qs, hcuts, hkept, rfl⟩ := hr
  rw [Nat.add_assoc, ← List.drop_drop] at hcuts
  exact ⟨_, _, .cut hleft hcuts, hkept.cons hcuts.ne_nil, by rw [List.append_assoc, List.singleton_append]⟩

theorem Adds.leaves (hd : d ≠ []) (h : splitRound s d v = .inr r) : Adds s d v r := by
  obtain ⟨hge, rfl⟩ | ⟨hlt, hno, rfl⟩ := splitRound_leaves h
  · refine ⟨[[]], [], ?_, .inl rfl, (List.append_nil _).symm⟩
    rw [List.drop_eq_nil_of_le hge]
    exact (cuts_nil_iff hd).mpr rfl
  · refine ⟨_, _, .last hno, .inr ⟨rfl, ?_⟩, rfl⟩
    simpa using hlt

theorem splitRound_variant (hd : d ≠ []) (h : splitRound s d v = .inl w) : s.length - w.1 < s.length - v.1 := by
  obtain ⟨hlt, k, -, rfl⟩ := splitRound_goes h
  have := List.length_pos_iff.mpr hd
  show s.length - (v.1 + k + d.length) < s.length - v.1
  omega

/-- With a delimiter the loop is left, and has cut what was before it. -/
theorem split_adds (hd : d ≠ []) (ret : List (List UInt8)) :
    ∃ rounds r, split s d ret rounds = some r ∧ Adds s d (0, []) r :=
  loop_rule (I := fun _ => True) (fun v => s.length - v.1)
    (fun _ _ _ h => ⟨trivial, splitRound_variant hd h, fun _ => Adds.goes h⟩)
    (fun _ _ _ h => Adds.leaves hd h) trivial

end Rounds

/-- `split` with a delimiter is left with the pieces between the cuts, without an empty
last one; joined they are the string, or the string without the delimiter that ends it. -/
theorem split_joined (s d : List UInt8) (hd : d ≠ []) (ret : List (List UInt8)) :
    ∃ r, (∃ n, ∀ rounds ≥ n, split s d ret rounds = some r) ∧ (∃ ps, Cuts d s ps ∧ Kept ps r) ∧
      (∀ p ∈ r, ¬ d <:+: p) ∧ (r = [] ↔ s = []) ∧
      (d.intercalate r ++ d = s ↔ EndsInCut d s) ∧ (d.intercalate r = s ↔ ¬ EndsInCut d s) := by
  obtain ⟨n, r, hsplit, ps, qs, hcuts, hkept, rfl⟩ := split_adds (s := s) hd ret
  exact ⟨r, ⟨n, fun _ => loop_mono hsplit⟩, ⟨ps, hcuts, hkept⟩, fun p hp => hcuts.not_infix hd (hkept.mem hp),
    hkept.nil_iff hcuts hd, hkept.join hcuts hd⟩

/-- `"a--b---"` at `"--"` is `"a"`, `"b"`, `"-"`, whatever `ret` held. -/
theorem split_joined_dashes :
    ([45, 45] : List UInt8) ≠ [] ∧ split [97, 45, 45, 98, 45, 45, 45] [45, 45] [[1]] 9 = some [[97], [98], [45]] ∧
      ∃ r, (∃ n, ∀ rounds ≥ n, split [97, 45, 45, 98, 45, 45, 45] [45, 45] [[1]] rounds = some r) ∧
        (∃ ps, Cuts [45, 45] [97, 45, 45, 98, 45, 45, 45] ps ∧ Kept ps r) ∧ (∀ p ∈ r, ¬ [45, 45] <:+: p) ∧
        (r = [] ↔ ([97, 45, 45, 98, 45, 45, 45] : List UInt8) = []) ∧
        (List.intercalate [45, 45] r ++ [45, 45] = [97, 45, 45, 98, 45, 45, 45] ↔
          EndsInCut [45, 45] ([97, 45, 45, 98, 45, 45, 45] : List UInt8)) ∧
        (List.intercalate [45, 45] r = [97, 45, 45, 98, 45, 45, 45] ↔
          ¬ EndsInCut [45, 45] ([97, 45, 45, 98, 45, 45, 45] : List UInt8)) :=
  ⟨by decide, by decide, split_joined _ _ (by decide) _⟩

end CppBase.Utility.StrUtil
