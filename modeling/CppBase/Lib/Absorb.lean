import Mathlib.Data.List.Basic

/-! A stream that is taken in blocks of a fixed length. Taking it element by element,
with those that do not fill a block yet kept aside, shows that it does not matter how
the stream is cut. -/

namespace CppBase.Lib

variable {σ α : Type}

/-- Take one more element; a full block goes through `step`. -/
def absorb (n : ℕ) (step : σ → List α → σ) (s : σ × List α) (a : α) : σ × List α :=
  if s.2.length + 1 = n then (step s.1 (s.2 ++ [a]), []) else (s.1, s.2 ++ [a])

variable {n : ℕ} {step : σ → List α → σ} {s : σ} {kept l m : List α}

theorem absorb_short (h : kept.length + l.length < n) : l.foldl (absorb n step) (s, kept) = (s, kept ++ l) := by
  induction l generalizing kept with
  | nil => simp
  | cons a l ih =>
    rw [List.length_cons] at h
    rw [List.foldl_cons, absorb, if_neg (by simp only; omega), ih (by simp; omega), List.append_assoc,
      List.singleton_append]

theorem absorb_full (hk : kept.length < n) (h : kept.length + l.length = n) :
    l.foldl (absorb n step) (s, kept) = (step s (kept ++ l), []) := by
  obtain rfl | ⟨l, a, rfl⟩ := List.eq_nil_or_concat' l
  · rw [List.length_nil] at h
    omega
  · rw [List.length_append, List.length_singleton] at h
    have hshort : l.foldl (absorb n step) (s, kept) = (s, kept ++ l) := absorb_short (by omega)
    rw [List.foldl_append, hshort, List.foldl_cons, List.foldl_nil, absorb, if_pos (by simp; omega),
      List.append_assoc]

theorem absorb_block (hn : 0 < n) (h : l.length = n) : l.foldl (absorb n step) (s, []) = (step s l, []) :=
  absorb_full hn ((Nat.zero_add _).trans h)

end CppBase.Lib
