import Mathlib.Algebra.BigOperators.Group.Finset.Piecewise
import Mathlib.Algebra.Order.Group.Multiset
import Mathlib.Data.Multiset.Range
import Mathlib.Tactic.Abel

/-! Tokens that move between a common store and the parties that share it: a
move keeps the total when what one party gives up, the store takes. -/

namespace CppBase.Lib

variable {ι κ : Type} [Fintype ι] [DecidableEq ι]

theorem sum_update_add (f : ι → Multiset κ) (i : ι) (b : Multiset κ) :
    ∑ j, Function.update f i b j + f i = ∑ j, f j + b := by
  rw [Finset.sum_update_of_mem (Finset.mem_univ i), ← Finset.add_sum_erase Finset.univ f (Finset.mem_univ i),
    Finset.erase_eq]
  abel

/-- Party `i` changes its tokens to `b`, and the store changes from `A` to `B` by the difference. -/
theorem tokens_update {f : ι → Multiset κ} {i : ι} {A B b total : Multiset κ} (h : A + ∑ j, f j = total)
    (hmove : B + b = A + f i) : B + ∑ j, Function.update f i b j = total := by
  apply add_right_cancel (b := f i)
  calc B + ∑ j, Function.update f i b j + f i = B + (∑ j, f j + b) := by rw [add_assoc, sum_update_add]
    _ = (B + b) + ∑ j, f j := by abel
    _ = total + f i := by rw [hmove, ← h]; abel

end CppBase.Lib
