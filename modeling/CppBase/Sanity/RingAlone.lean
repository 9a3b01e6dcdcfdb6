import CppBase.Sanity.RingIndices
import CppBase.Spec.RingThreads

/-! Calls that nothing interrupts: step by step they do what `write`, `read` and
`peek` do at once, and those are the operations of a bounded queue. -/

namespace CppBase.Ring

open CppBase.Lib

variable {V : Type}

namespace System

variable {s : System V} {p : V} {op : ReadCall}

section Writer

theorem solo_count_write (hs : s.producer = .counting p .compareW) :
    Solo next ok .producer s
      { s with producer := if 0 < s.buffer.getWritableSlotCount then .slot p else .full } := by
  apply Solo.step (by simp [ok, hs])
  apply Solo.step (by simp [next, stepProducer, ok, hs, Count.step])
  by_cases hlt : s.buffer.wIndex < s.buffer.rIndex
  · apply Solo.step (by simp [next, stepProducer, ok, hs, Count.step, hlt])
    apply Solo.step (by simp [next, stepProducer, ok, hs, Count.step, hlt])
    simp only [next, stepProducer, hs, Count.step, hlt, if_true, RingBuffer.getWritableSlotCount]
    exact Solo.refl _
  · apply Solo.step (by simp [next, stepProducer, ok, hs, Count.step, hlt])
    apply Solo.step (by simp [next, stepProducer, ok, hs, Count.step, hlt])
    simp only [next, stepProducer, hs, Count.step, hlt, if_false, RingBuffer.getWritableSlotCount]
    exact Solo.refl _

/-- From the slot on, when there is room. -/
theorem solo_slot_write (hs : s.producer = .slot p) :
    Solo next ok .producer s
      { s with
        buffer := (s.buffer.setSlot s.buffer.wIndex p).advanceW
        producer := .idle
        accepted := s.accepted ++ [p] } := by
  apply Solo.step (by simp [ok, hs])
  apply Solo.step (by simp [next, stepProducer, ok, hs])
  apply Solo.step (by simp [next, stepProducer, ok, hs])
  by_cases hlt : s.buffer.wIndex < s.buffer.size
  · apply Solo.step (by simp [next, stepProducer, ok, hs, Advance.next, hlt])
    apply Solo.step (by simp [next, stepProducer, ok, hs, Advance.next, hlt])
    simp only [next, stepProducer, hs, Advance.next, RingBuffer.setSlot_size, RingBuffer.setSlot_wIndex, hlt, if_true,
      RingBuffer.advanceW, RingBuffer.succIndex]
    exact Solo.refl _
  · apply Solo.step (by simp [next, stepProducer, ok, hs, Advance.next, hlt])
    simp only [next, stepProducer, hs, Advance.next, RingBuffer.setSlot_size, RingBuffer.setSlot_wIndex, hlt, if_false,
      RingBuffer.advanceW, RingBuffer.succIndex]
    exact Solo.refl _

theorem solo_write (hs : s.producer = .counting p .compareW) :
    Solo next ok .producer s
      { s with
        buffer := (s.buffer.write p).2
        producer := .idle
        accepted := if (s.buffer.write p).1 then s.accepted ++ [p] else s.accepted } := by
  refine (solo_count_write hs).trans ?_
  by_cases hw : 0 < s.buffer.getWritableSlotCount
  · simp only [hw, if_true, RingBuffer.write, RingBuffer.isWritable, decide_true]
    exact solo_slot_write rfl
  · simp only [hw, if_false, RingBuffer.write, RingBuffer.isWritable, decide_false, Bool.false_eq_true]
    exact Solo.step (by simp [ok]) (Solo.refl _)

end Writer

section Reader

theorem solo_count_read (hs : s.consumer = .counting op .compareW) :
    Solo next ok .consumer s
      { s with consumer := if 0 < s.buffer.getReadableSlotCount then .slot op else .empty op } := by
  apply Solo.step (by simp [ok, hs])
  apply Solo.step (by simp [next, stepConsumer, ok, hs, Count.step])
  by_cases hlt : s.buffer.wIndex < s.buffer.rIndex
  · apply Solo.step (by simp [next, stepConsumer, ok, hs, Count.step, hlt])
    apply Solo.step (by simp [next, stepConsumer, ok, hs, Count.step, hlt])
    simp only [next, stepConsumer, hs, Count.step, hlt, if_true, RingBuffer.getReadableSlotCount,
      RingBuffer.getWritableSlotCount]
    exact Solo.refl _
  · apply Solo.step (by simp [next, stepConsumer, ok, hs, Count.step, hlt])
    apply Solo.step (by simp [next, stepConsumer, ok, hs, Count.step, hlt])
    simp only [next, stepConsumer, hs, Count.step, hlt, if_false, RingBuffer.getReadableSlotCount,
      RingBuffer.getWritableSlotCount]
    exact Solo.refl _

theorem solo_slot_read (hs : s.consumer = .slot .read) :
    Solo next ok .consumer s
      { s with
        buffer := s.buffer.advanceR
        consumer := .idle
        returned := s.returned ++ [s.buffer.slots s.buffer.rIndex.toNat] } := by
  apply Solo.step (by simp [ok, hs])
  apply Solo.step (by simp [next, stepConsumer, ok, hs])
  apply Solo.step (by simp [next, stepConsumer, ok, hs])
  by_cases hlt : s.buffer.rIndex < s.buffer.size
  · apply Solo.step (by simp [next, stepConsumer, ok, hs, Advance.next, hlt])
    apply Solo.step (by simp [next, stepConsumer, ok, hs, Advance.next, hlt])
    simp only [next, stepConsumer, hs, Advance.next, hlt, if_true, RingBuffer.advanceR, RingBuffer.succIndex]
    exact Solo.refl _
  · apply Solo.step (by simp [next, stepConsumer, ok, hs, Advance.next, hlt])
    simp only [next, stepConsumer, hs, Advance.next, hlt, if_false, RingBuffer.advanceR, RingBuffer.succIndex]
    exact Solo.refl _

theorem solo_read (hs : s.consumer = .counting .read .compareW) :
    Solo next ok .consumer s
      { s with
        buffer := s.buffer.read.2
        consumer := .idle
        returned := s.returned ++ s.buffer.read.1.toList } := by
  refine (solo_count_read hs).trans ?_
  by_cases hr : 0 < s.buffer.getReadableSlotCount
  · simp only [hr, if_true, RingBuffer.read, RingBuffer.isReadable, decide_true, Option.toList_some]
    exact solo_slot_read rfl
  · simp only [hr, if_false, RingBuffer.read, RingBuffer.isReadable, decide_false, Bool.false_eq_true,
      Option.toList_none, List.append_nil]
    exact Solo.step (by simp [ok]) (Solo.refl _)

end Reader

end System

namespace RingBuffer

variable {b : RingBuffer V}

theorem WellFormed.write (h : b.WellFormed) (p : V) : (b.write p).2.WellFormed := by
  unfold RingBuffer.write
  split_ifs
  · exact (h.setSlot _ _).advanceW
  · exact h

theorem WellFormed.read (h : b.WellFormed) : b.read.2.WellFormed := by
  unfold RingBuffer.read
  split_ifs
  · exact h.advanceR
  · exact h

theorem write_queued (h : b.WellFormed) (p : V) :
    (b.write p).1 = (offer b.size.toNat b.queued p).1 ∧ (b.write p).2.queued = (offer b.size.toNat b.queued p).2 := by
  have hw := isWritable_iff h
  unfold RingBuffer.write offer
  rw [length_queued]
  split_ifs with h1 h2 h2
  · refine ⟨rfl, ?_⟩
    rw [queued_advanceW (h.setSlot _ _) (hw.mp h1), queued_setSlot h, setSlot_wIndex, setSlot_slots_self]
  · exact absurd (hw.mp h1) h2
  · exact absurd (hw.mpr h2) h1
  · exact ⟨rfl, rfl⟩

theorem read_queued (h : b.WellFormed) : b.read.1 = (poll b.queued).1 ∧ b.read.2.queued = (poll b.queued).2 := by
  have hr := isReadable_iff h
  unfold RingBuffer.read poll
  split_ifs with h1
  · rw [queued_advanceR h (hr.mp h1)]
    exact ⟨rfl, rfl⟩
  · have hempty : b.queued = [] := by
      rw [← List.length_eq_zero_iff, length_queued]
      exact Nat.eq_zero_of_not_pos fun hpos => h1 (hr.mpr hpos)
    rw [hempty]
    exact ⟨rfl, rfl⟩

theorem peek_eq_read (b : RingBuffer V) : b.peek = b.read.1 := by
  unfold RingBuffer.peek RingBuffer.read
  split_ifs <;> rfl

@[simp] theorem write_size (b : RingBuffer V) (p : V) : (b.write p).2.size = b.size := by
  unfold RingBuffer.write
  split_ifs <;> rfl

@[simp] theorem read_size (b : RingBuffer V) : b.read.2.size = b.size := by
  unfold RingBuffer.read
  split_ifs <;> rfl

/-- The buffer answers every sequence of calls as the bounded queue does. -/
theorem answers_call (h : b.WellFormed) (calls : List (Call V)) :
    answers RingBuffer.call b calls = answers (queueCall b.size.toNat) b.queued calls := by
  let R : List V → RingBuffer V → Prop := fun q c => c.WellFormed ∧ c.size = b.size ∧ q = c.queued
  have hR : R b.queued b := ⟨h, rfl, rfl⟩
  refine answers_eq ?_ hR calls
  rintro q c call ⟨hwf, hsize, rfl⟩
  cases call with
  | write p =>
    obtain ⟨h1, h2⟩ := write_queued hwf p
    rw [hsize] at h1 h2
    exact ⟨congrArg Answer.wrote h1, hwf.write p, (c.write_size p).trans hsize, h2.symm⟩
  | read =>
    obtain ⟨h1, h2⟩ := read_queued hwf
    exact ⟨congrArg Answer.got h1, hwf.read, c.read_size.trans hsize, h2.symm⟩
  | peek =>
    refine ⟨congrArg Answer.got ?_, hwf, hsize, rfl⟩
    rw [peek_eq_read]
    exact (read_queued hwf).1

end RingBuffer

end CppBase.Ring
