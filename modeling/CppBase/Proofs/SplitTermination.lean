import CppBase.Proofs.SplitLines

/-! An empty delimiter is found where the search starts, so `split` never gets past the
first character of the string and `ret` grows. -/

namespace CppBase.Utility.StrUtil

open CppBase.Lib

variable {s d : List UInt8} {ret : List (List UInt8)}

theorem splitRound_empty (hs : s ≠ []) (ret : List (List UInt8)) :
    splitRound s [] (0, ret) = .inl (0, ret ++ [[]]) := by
  have hfind : find s [] 0 = some 0 :=
    firstFrom_eq_some.mpr ⟨rfl, ⟨Nat.le_refl 0, Nat.succ_pos _⟩, fun j _ hj => absurd hj (Nat.not_lt_zero j)⟩
  have hpos : 0 < s.length := List.length_pos_iff.mpr hs
  simp [splitRound, hfind, hpos, substr]

theorem split_empty_hangs (hs : s ≠ []) (rounds : ℕ) : split s [] ret rounds = none :=
  loop_never (I := fun v => v.1 = 0)
    (fun v hv => ⟨(0, v.2 ++ [[]]), by rw [← splitRound_empty hs v.2, ← hv], rfl⟩) rfl rounds

/-- `splitLine` returns, and `split` does unless the delimiter is empty and the string is not. -/
theorem split_terminates_iff (s d : List UInt8) (ret : List (List UInt8)) :
    ((∃ rounds r, split s d ret rounds = some r) ∧ ∃ rounds r, splitLine s ret rounds = some r) ↔
      s = [] ∨ d ≠ [] := by
  obtain ⟨n, hlines⟩ := splitLine_leaves_lines s ret
  rw [and_iff_left ⟨n, _, hlines n (Nat.le_refl n)⟩]
  constructor
  · rintro ⟨rounds, r, h⟩
    by_contra hno
    push Not at hno
    obtain ⟨hs, rfl⟩ := hno
    rw [split_empty_hangs hs] at h
    cases h
  · rintro (rfl | hd)
    · exact ⟨1, [], rfl⟩
    · obtain ⟨rounds, r, h, -⟩ := split_adds (s := s) hd ret
      exact ⟨rounds, r, h⟩

theorem split_empty_never : ¬ ∃ rounds r, split [97] [] [] rounds = some r := by
  rintro ⟨rounds, r, h⟩
  rw [split_empty_hangs (by decide)] at h
  cases h

end CppBase.Utility.StrUtil
