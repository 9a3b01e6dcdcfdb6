import Mathlib.Data.List.Basic

/-! Parts of a block of memory: reading a slice, and writing one. -/

namespace CppBase.Lib

variable {α : Type} {l d : List α} {i j n : ℕ}

def slice (l : List α) (i n : ℕ) : List α := (l.drop i).take n

/-- Overwrite the cells from `i` on. -/
def patch (l : List α) (i : ℕ) (d : List α) : List α := l.take i ++ d ++ l.drop (i + d.length)

theorem length_slice (h : i + n ≤ l.length) : (slice l i n).length = n := by
  simp only [slice, List.length_take, List.length_drop]
  omega

/-- What is written past the end makes the block longer. -/
theorem length_patch_max (h : i ≤ l.length) : (patch l i d).length = max l.length (i + d.length) := by
  simp only [patch, List.length_append, List.length_take, List.length_drop]
  omega

theorem length_patch (h : i + d.length ≤ l.length) : (patch l i d).length = l.length := by
  rw [length_patch_max (by omega), Nat.max_eq_left h]

theorem le_length_patch (h : i ≤ l.length) : i + d.length ≤ (patch l i d).length := by
  rw [length_patch_max h]
  exact Nat.le_max_right _ _

/-- A slice that ends where the write begins is followed by what was written. -/
theorem slice_patch (h : i ≤ j) (hj : j + d.length ≤ l.length) :
    slice (patch l j d) i (j + d.length - i) = slice l i (j - i) ++ d := by
  have hlen : ((l.take j).drop i).length = j - i := by
    simp only [List.length_drop, List.length_take]
    omega
  have hrest : j + d.length - i - (j - i) = d.length := by omega
  have hall : ((l.take j).drop i).take (j + d.length - i) = (l.take j).drop i := List.take_of_length_le (by omega)
  rw [slice, patch, List.append_assoc, List.drop_append_of_le_length (by simp; omega), List.take_append, hall,
    hlen, hrest, List.take_left, List.drop_take, slice]

theorem slice_patch_zero (d : List α) (l : List α) : slice (patch l 0 d) 0 d.length = d := by
  simp [slice, patch]

theorem slice_append (h : i + n ≤ l.length) (d : List α) : slice (l ++ d) i n = slice l i n := by
  rw [slice, List.drop_append_of_le_length (by omega), List.take_append_of_le_length (by simp; omega), slice]

theorem slice_drop (l : List α) (i n j : ℕ) : slice l (i + j) (n - j) = (slice l i n).drop j := by
  rw [slice, slice, List.drop_take, List.drop_drop]

end CppBase.Lib
