import CppBase.Sanity.RingIndices
import CppBase.Spec.RingThreads

/-! What each thread of the ring buffer may rely on between two of its steps,
whatever the other one does meanwhile. The writer relies on the queue not
getting fuller, the reader on its not getting emptier. -/

namespace CppBase.Ring

variable {V : Type} {b : RingBuffer V}

/-- The writer's side of an evaluation of the free-slot count. After the compare,
either the write index is not the last one, or the read index has not wrapped. -/
def Count.KnowsW (b : RingBuffer V) : Count → Prop
  | .compareW => True
  | .compareR w => w = b.wIndex
  | .wrapR => b.wIndex.toNat < b.size.toNat
  | .wrapW r => b.wIndex.toNat < b.size.toNat ∧ r ≤ b.size ∧ (r.toNat ≠ b.wIndex.toNat + 1 → b.count < b.size.toNat)
  | .flatW => b.rIndex.toNat ≤ b.wIndex.toNat
  | .flatR w => w = b.wIndex ∧ b.rIndex.toNat ≤ b.wIndex.toNat

/-- The reader's side. -/
def Count.KnowsR (b : RingBuffer V) : Count → Prop
  | .compareW => True
  | .compareR w => w < b.rIndex → b.wIndex.toNat < b.rIndex.toNat
  | .wrapR => b.wIndex.toNat < b.rIndex.toNat
  | .wrapW r => r = b.rIndex ∧ b.wIndex.toNat < b.rIndex.toNat
  | .flatW => True
  | .flatR w => w ≤ b.size ∧ (w.toNat ≠ b.rIndex.toNat → 0 < b.count)

/-- A thread's own index `i` on the way to its successor. -/
def Advance.Knows (b : RingBuffer V) (i : UInt32) : Advance → Prop
  | .compare => True
  | .load => i < b.size
  | .store j => j = b.succIndex i

def Producer.Knows (b : RingBuffer V) : Producer V → Prop
  | .idle => True
  | .counting _ c => c.KnowsW b
  | .full => True
  | .slot _ => b.count < b.size.toNat
  | .store _ i => i = b.wIndex ∧ b.count < b.size.toNat
  | .advance p a => b.slots b.wIndex.toNat = p ∧ b.count < b.size.toNat ∧ a.Knows b b.wIndex

def Consumer.Knows (b : RingBuffer V) : Consumer V → Prop
  | .idle => True
  | .counting _ c => c.KnowsR b
  | .empty _ => True
  | .slot _ => 0 < b.count
  | .load _ i => i = b.rIndex ∧ 0 < b.count
  | .advance v a => v = b.slots b.rIndex.toNat ∧ 0 < b.count ∧ a.Knows b b.rIndex

section Counting

theorem count_eq_size_of_next (hr : b.rIndex.toNat = b.wIndex.toNat + 1) :
    b.count = b.size.toNat := by
  rw [RingBuffer.count_eq, if_neg (by omega)]
  omega

theorem count_lt_size_of_ne (h : b.WellFormed) (hw : b.wIndex.toNat < b.size.toNat)
    (hr : b.rIndex.toNat ≠ b.wIndex.toNat + 1) : b.count < b.size.toNat := by
  have := h.rNat_le
  rw [RingBuffer.count_eq]
  split_ifs <;> omega

/-- The count the writer arrives at is zero only where the last item fits no more. -/
theorem Count.KnowsW.step {c : Count} (h : b.WellFormed) (hc : c.KnowsW b) :
    match c.step b with
    | .inl c' => c'.KnowsW b
    | .inr n => 0 < n → b.count < b.size.toNat := by
  have hr := h.rNat_le
  have hw := h.wNat_le
  have hn := h.size_lt
  cases c with
  | compareW => rfl
  | compareR w =>
    obtain rfl : w = b.wIndex := hc
    show Count.KnowsW b (if b.wIndex < b.rIndex then .wrapR else .flatW)
    simp only [UInt32.lt_iff_toNat_lt]
    split_ifs with hlt
    · show b.wIndex.toNat < b.size.toNat
      omega
    · show b.rIndex.toNat ≤ b.wIndex.toNat
      omega
  | wrapR => exact ⟨hc, h.rIndex_le, count_lt_size_of_ne h hc⟩
  | wrapW r =>
    obtain ⟨-, -, hne⟩ := hc
    intro hpos
    apply hne
    intro he
    rw [UInt32.lt_iff_toNat_lt, UInt32.toNat_sub, UInt32.toNat_sub, UInt32.toNat_one, UInt32.toNat_zero, he] at hpos
    omega
  | flatW => exact ⟨rfl, hc⟩
  | flatR w =>
    obtain ⟨rfl, hle⟩ := hc
    intro hpos
    rw [UInt32.lt_iff_toNat_lt, UInt32.toNat_add, UInt32.toNat_sub, UInt32.toNat_zero] at hpos
    rw [RingBuffer.count_eq, if_pos hle]
    omega

/-- The count the reader arrives at leaves something to read only where an item is queued. -/
theorem Count.KnowsR.step {c : Count} (h : b.WellFormed) (hc : c.KnowsR b) :
    match c.step b with
    | .inl c' => c'.KnowsR b
    | .inr n => 0 < b.size - n → 0 < b.count := by
  have hr := h.rNat_le
  have hw := h.wNat_le
  have hn := h.size_lt
  have hzero := RingBuffer.count_eq_zero_iff h
  cases c with
  | compareW =>
    intro hlt
    exact UInt32.lt_iff_toNat_lt.mp hlt
  | compareR w =>
    show Count.KnowsR b (if w < b.rIndex then .wrapR else .flatW)
    split_ifs with hlt
    · exact hc hlt
    · trivial
  | wrapR => exact ⟨rfl, hc⟩
  | wrapW r =>
    intro _
    have := hc.2
    omega
  | flatW => exact ⟨h.wIndex_le, fun hne => by omega⟩
  | flatR w =>
    obtain ⟨hwle, hne⟩ := hc
    rw [UInt32.le_iff_toNat_le] at hwle
    intro hpos
    apply hne
    intro he
    rw [UInt32.lt_iff_toNat_lt, UInt32.toNat_sub, UInt32.toNat_add, UInt32.toNat_sub, UInt32.toNat_zero, he] at hpos
    omega

end Counting

theorem Advance.Knows.next {i : UInt32} {a : Advance} (h : a.Knows b i) : (a.next b.size i).Knows b i := by
  cases a with
  | compare =>
    show Advance.Knows b i (if i < b.size then .load else .store 0)
    split_ifs with hi
    · exact hi
    · exact (if_neg hi).symm
  | load => exact (if_pos h).symm
  | store j => exact h

section OtherSide

theorem Advance.Knows.congr {b' : RingBuffer V} {i : UInt32} {a : Advance} (h : a.Knows b i)
    (hsize : b'.size = b.size) : a.Knows b' i := by
  cases a with
  | compare => trivial
  | load =>
    show i < b'.size
    rw [hsize]
    exact h
  | store j =>
    show j = b'.succIndex i
    rw [RingBuffer.succIndex, hsize]
    exact h

/-- The writer fills the slot at its index: the reader's knowledge stands. -/
theorem Consumer.Knows.setSlot {c : Consumer V} (hc : c.Knows b) (h : b.WellFormed) (p : V) :
    c.Knows (b.setSlot b.wIndex p) := by
  cases c with
  | advance v a =>
    obtain ⟨hv, hpos, ha⟩ := hc
    refine ⟨?_, hpos, ha.congr rfl⟩
    have hne : b.rIndex.toNat ≠ b.wIndex.toNat := by
      have := RingBuffer.count_eq_zero_iff h
      omega
    rw [hv]
    exact (Function.update_of_ne hne p b.slots).symm
  | counting op c => cases c <;> exact hc
  | _ => exact hc

theorem Count.KnowsR.advanceW {c : Count} (hc : c.KnowsR b) (h : b.WellFormed) (hlt : b.count < b.size.toNat) :
    c.KnowsR b.advanceW := by
  have hr := h.rNat_le
  have hs : b.advanceW.wIndex.toNat = _ := RingBuffer.toNat_succIndex h b.wIndex
  have hwrap : b.wIndex.toNat < b.rIndex.toNat → b.advanceW.wIndex.toNat < b.rIndex.toNat := by
    intro hw
    rw [RingBuffer.count_eq, if_neg (by omega)] at hlt
    rw [hs, if_pos (by omega)]
    omega
  cases c with
  | compareR w => exact fun hw => hwrap (hc hw)
  | wrapR => exact hwrap hc
  | wrapW r => exact ⟨hc.1, hwrap hc.2⟩
  | flatR w => exact ⟨hc.1, fun _ => by rw [RingBuffer.count_advanceW h hlt]; omega⟩
  | _ => trivial

/-- The writer queues an item: the reader's knowledge stands. -/
theorem Consumer.Knows.advanceW {c : Consumer V} (hc : c.Knows b) (h : b.WellFormed)
    (hlt : b.count < b.size.toNat) :
    c.Knows b.advanceW := by
  have hcount : 0 < b.advanceW.count := by
    rw [RingBuffer.count_advanceW h hlt]
    omega
  cases c with
  | counting op c => exact Count.KnowsR.advanceW hc h hlt
  | slot op => exact hcount
  | load op i => exact ⟨hc.1, hcount⟩
  | advance v a => exact ⟨hc.1, hcount, hc.2.2.congr rfl⟩
  | _ => trivial

theorem Count.KnowsW.advanceR {c : Count} (hc : c.KnowsW b) (h : b.WellFormed) (hpos : 0 < b.count) :
    c.KnowsW b.advanceR := by
  have hw := h.wNat_le
  have hcount := RingBuffer.count_advanceR h hpos
  have hs : b.advanceR.rIndex.toNat = _ := RingBuffer.toNat_succIndex h b.rIndex
  have hle := h.count_le
  have hflat : b.rIndex.toNat ≤ b.wIndex.toNat → b.advanceR.rIndex.toNat ≤ b.wIndex.toNat := by
    intro hr
    have hzero := RingBuffer.count_eq_zero_iff h
    rw [hs, if_pos (by omega)]
    omega
  cases c with
  | compareW => trivial
  | compareR w => exact hc
  | wrapR => exact hc
  | wrapW r =>
    refine ⟨hc.1, hc.2.1, fun _ => ?_⟩
    show b.advanceR.count < b.size.toNat
    omega
  | flatW => exact hflat hc
  | flatR w => exact ⟨hc.1, hflat hc.2⟩

/-- The reader takes an item off: the writer's knowledge stands. -/
theorem Producer.Knows.advanceR {p : Producer V} (hp : p.Knows b) (h : b.WellFormed) (hpos : 0 < b.count) :
    p.Knows b.advanceR := by
  have hcount : b.advanceR.count < b.size.toNat := by
    have := RingBuffer.count_advanceR h hpos
    have := h.count_le
    omega
  cases p with
  | counting v c => exact Count.KnowsW.advanceR hp h hpos
  | slot v => exact hcount
  | store v i => exact ⟨hp.1, hcount⟩
  | advance v a => exact ⟨hp.1, hcount, hp.2.2.congr rfl⟩
  | _ => trivial

end OtherSide

end CppBase.Ring
