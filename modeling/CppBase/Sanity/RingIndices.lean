import Mathlib.Tactic.SplitIfs
import CppBase.Spec.RingBuffer

/-! Index arithmetic of the ring buffer. The two indices determine the number of
queued items; the tests of the source, which wrap around, decide whether that
number is below the capacity or above zero. -/

namespace CppBase.Ring.RingBuffer

open CppBase.Lib

variable {V : Type} {b : RingBuffer V}

/-- The indices stay inside the array, whose length fits the index type. -/
structure WellFormed (b : RingBuffer V) : Prop where
  rIndex_le : b.rIndex ≤ b.size
  wIndex_le : b.wIndex ≤ b.size
  size_lt : b.size.toNat + 1 < 2 ^ 32

theorem wellFormed_create {size : UInt32} (h : size.toNat + 1 < 2 ^ 32) (slots : ℕ → V) :
    (create size slots).WellFormed :=
  ⟨UInt32.zero_le, UInt32.zero_le, h⟩

theorem WellFormed.rNat_le (h : b.WellFormed) :
    b.rIndex.toNat ≤ b.size.toNat := UInt32.le_iff_toNat_le.mp h.rIndex_le

theorem WellFormed.wNat_le (h : b.WellFormed) :
    b.wIndex.toNat ≤ b.size.toNat := UInt32.le_iff_toNat_le.mp h.wIndex_le

section Successor

theorem toNat_succIndex (h : b.WellFormed) (i : UInt32) :
    (b.succIndex i).toNat = if i.toNat < b.size.toNat then i.toNat + 1 else 0 := by
  have hn := h.size_lt
  unfold succIndex
  simp only [UInt32.lt_iff_toNat_lt]
  split_ifs with hlt
  · rw [UInt32.toNat_add, UInt32.toNat_one]
    omega
  · rfl

theorem succIndex_le (h : b.WellFormed) (i : UInt32) : b.succIndex i ≤ b.size := by
  rw [UInt32.le_iff_toNat_le, toNat_succIndex h]
  split_ifs
  · assumption
  · omega

theorem toNat_succIndex_mod (h : b.WellFormed) {i : UInt32} (hi : i ≤ b.size) :
    (b.succIndex i).toNat = (i.toNat + 1) % (b.size.toNat + 1) := by
  rw [toNat_succIndex h]
  rw [UInt32.le_iff_toNat_le] at hi
  split_ifs with hlt
  · rw [Nat.mod_eq_of_lt (by omega)]
  · rw [show i.toNat = b.size.toNat by omega, Nat.mod_self]

end Successor

theorem count_eq (b : RingBuffer V) :
    b.count = if b.rIndex.toNat ≤ b.wIndex.toNat then b.wIndex.toNat - b.rIndex.toNat
    else b.wIndex.toNat + (b.size.toNat + 1) - b.rIndex.toNat := by
  simp only [count, UInt32.le_iff_toNat_le]

theorem WellFormed.count_le (h : b.WellFormed) : b.count ≤ b.size.toNat := by
  have hr := h.rNat_le
  have hw := h.wNat_le
  rw [count_eq]
  split_ifs <;> omega

theorem count_eq_zero_iff (h : b.WellFormed) : b.count = 0 ↔ b.wIndex.toNat = b.rIndex.toNat := by
  have hr := h.rNat_le
  rw [count_eq]
  split_ifs <;> omega

/-- The write index is where a walk over the queued items stops. -/
theorem toNat_wIndex (h : b.WellFormed) : b.wIndex.toNat = (b.rIndex.toNat + b.count) % (b.size.toNat + 1) := by
  have hr := h.rNat_le
  have hw := h.wNat_le
  rw [count_eq]
  split_ifs with hle
  · rw [Nat.mod_eq_of_lt] <;> omega
  · have hsum : b.rIndex.toNat + (b.wIndex.toNat + (b.size.toNat + 1) - b.rIndex.toNat) =
        b.wIndex.toNat + (b.size.toNat + 1) := by omega
    rw [hsum, Nat.add_mod_right, Nat.mod_eq_of_lt (by omega)]

theorem length_queued (b : RingBuffer V) : b.queued.length = b.count := length_window

section Moves

@[simp] theorem setSlot_rIndex (i : UInt32) (p : V) : (b.setSlot i p).rIndex = b.rIndex := rfl
@[simp] theorem setSlot_wIndex (i : UInt32) (p : V) : (b.setSlot i p).wIndex = b.wIndex := rfl
@[simp] theorem setSlot_size (i : UInt32) (p : V) : (b.setSlot i p).size = b.size := rfl
@[simp] theorem setSlot_count (i : UInt32) (p : V) : (b.setSlot i p).count = b.count := rfl
@[simp] theorem setSlot_slots_self (i : UInt32) (p : V) : (b.setSlot i p).slots i.toNat = p := by simp [setSlot]

theorem WellFormed.setSlot (h : b.WellFormed) (i : UInt32) (p : V) : (b.setSlot i p).WellFormed :=
  ⟨h.rIndex_le, h.wIndex_le, h.size_lt⟩

theorem WellFormed.advanceW (h : b.WellFormed) : b.advanceW.WellFormed :=
  ⟨h.rIndex_le, succIndex_le h _, h.size_lt⟩

theorem WellFormed.advanceR (h : b.WellFormed) : b.advanceR.WellFormed :=
  ⟨succIndex_le h _, h.wIndex_le, h.size_lt⟩

/-- The slot at the write index holds no queued item. -/
theorem queued_setSlot (h : b.WellFormed) (p : V) : (b.setSlot b.wIndex p).queued = b.queued := by
  have hc := h.count_le
  show window (Function.update b.slots b.wIndex.toNat p) _ _ b.count = window b.slots _ _ b.count
  rw [toNat_wIndex h]
  exact window_update_end (by omega) p

theorem count_advanceW (h : b.WellFormed) (hc : b.count < b.size.toNat) : b.advanceW.count = b.count + 1 := by
  have hr := h.rNat_le
  have hw := h.wNat_le
  have hs : b.advanceW.wIndex.toNat = _ := toNat_succIndex h b.wIndex
  rw [count_eq] at hc ⊢
  rw [hs, count_eq]
  show (if b.rIndex.toNat ≤ _ then _ - b.rIndex.toNat else _ + (b.size.toNat + 1) - b.rIndex.toNat) = _
  split_ifs at hc ⊢ <;> omega

theorem count_advanceR (h : b.WellFormed) (hc : 0 < b.count) : b.advanceR.count + 1 = b.count := by
  have hr := h.rNat_le
  have hw := h.wNat_le
  have hs : b.advanceR.rIndex.toNat = _ := toNat_succIndex h b.rIndex
  rw [count_eq] at hc ⊢
  rw [hs, count_eq]
  show (if _ ≤ b.wIndex.toNat then b.wIndex.toNat - _ else b.wIndex.toNat + (b.size.toNat + 1) - _) + 1 = _
  split_ifs at hc ⊢ <;> omega

/-- Advancing the write index queues the item in its slot. -/
theorem queued_advanceW (h : b.WellFormed) (hc : b.count < b.size.toNat) :
    b.advanceW.queued = b.queued ++ [b.slots b.wIndex.toNat] := by
  rw [queued, count_advanceW h hc, toNat_wIndex h]
  exact window_snoc

/-- Advancing the read index takes the oldest item off. -/
theorem queued_advanceR (h : b.WellFormed) (hc : 0 < b.count) :
    b.queued = b.slots b.rIndex.toNat :: b.advanceR.queued := by
  have hr := h.rNat_le
  have hs : b.advanceR.rIndex.toNat = _ := toNat_succIndex_mod h h.rIndex_le
  have hrest : b.advanceR.queued = window b.slots (b.size.toNat + 1) (b.rIndex.toNat + 1) b.advanceR.count := by
    rw [queued, hs]
    exact window_mod
  rw [hrest, queued, ← count_advanceR h hc, window, Nat.mod_eq_of_lt (by omega)]

end Moves

section Tests

/-- The count of free slots, from an index of each side. -/
theorem toNat_getWritableSlotCount (h : b.WellFormed) : b.getWritableSlotCount.toNat = b.size.toNat - b.count := by
  have hr := h.rNat_le
  have hw := h.wNat_le
  have hn := h.size_lt
  rw [count_eq, getWritableSlotCount]
  simp only [UInt32.lt_iff_toNat_lt]
  split_ifs <;> simp only [UInt32.toNat_sub, UInt32.toNat_add, UInt32.toNat_one] <;> omega

theorem isWritable_iff (h : b.WellFormed) : b.isWritable = true ↔ b.count < b.size.toNat := by
  have hc := h.count_le
  rw [isWritable, decide_eq_true_iff, UInt32.lt_iff_toNat_lt, toNat_getWritableSlotCount h, UInt32.toNat_zero]
  omega

theorem isReadable_iff (h : b.WellFormed) : b.isReadable = true ↔ 0 < b.count := by
  have hc := h.count_le
  have hn := h.size_lt
  rw [isReadable, decide_eq_true_iff, getReadableSlotCount, UInt32.lt_iff_toNat_lt, UInt32.toNat_sub,
    toNat_getWritableSlotCount h, UInt32.toNat_zero]
  omega

end Tests

end CppBase.Ring.RingBuffer
