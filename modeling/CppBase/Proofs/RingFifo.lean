import CppBase.Sanity.RingAlone
import CppBase.Sanity.RingKnowledge

/-! The ring buffer is a bounded first-in first-out queue for one writer and one
reader, however their accesses interleave. -/

namespace CppBase.Ring

open CppBase.Lib

variable {V : Type}

namespace System

structure Inv (size : UInt32) (s : System V) : Prop where
  size_eq : s.buffer.size = size
  wellFormed : s.buffer.WellFormed
  fifo : s.accepted = s.returned ++ s.buffer.queued
  producer : s.producer.Knows s.buffer
  consumer : s.consumer.Knows s.buffer

variable {size : UInt32} {s : System V}

theorem inv_init (hsize : size.toNat + 1 < 2 ^ 32) (slots : ℕ → V) : (init size slots).Inv size := by
  refine ⟨rfl, RingBuffer.wellFormed_create hsize slots, ?_, trivial, trivial⟩
  simp [init, RingBuffer.queued, RingBuffer.count, RingBuffer.create, window]

/-- A step that leaves the buffer and the histories alone. -/
theorem Inv.local (h : s.Inv size) {p : Producer V} {c : Consumer V} (hp : p.Knows s.buffer)
    (hc : c.Knows s.buffer) : Inv size { s with producer := p, consumer := c } :=
  ⟨h.size_eq, h.wellFormed, h.fifo, hp, hc⟩

theorem Inv.stepProducer (h : s.Inv size) : s.stepProducer.Inv size := by
  have hp := h.producer
  have hwf := h.wellFormed
  unfold System.stepProducer
  cases hs : s.producer with
  | idle => exact h
  | counting p c =>
    rw [hs] at hp
    have hstep := Count.KnowsW.step hwf hp
    cases hcount : c.step s.buffer with
    | inl c' =>
      simp only [hcount] at hstep ⊢
      exact h.local hstep h.consumer
    | inr free =>
      simp only [hcount] at hstep ⊢
      refine h.local ?_ h.consumer
      split_ifs with hpos
      · exact hstep hpos
      · trivial
  | full => exact h.local trivial h.consumer
  | slot p =>
    rw [hs] at hp
    exact h.local ⟨rfl, hp⟩ h.consumer
  | store p i =>
    rw [hs] at hp
    obtain ⟨rfl, hlt⟩ := hp
    refine ⟨h.size_eq, hwf.setSlot _ _, ?_, ⟨RingBuffer.setSlot_slots_self _ _, hlt, trivial⟩,
      h.consumer.setSlot hwf _⟩
    rw [RingBuffer.queued_setSlot hwf]
    exact h.fifo
  | advance p a =>
    rw [hs] at hp
    obtain ⟨rfl, hlt, ha⟩ := hp
    cases a with
    | store i =>
      obtain rfl : i = s.buffer.succIndex s.buffer.wIndex := ha
      refine ⟨h.size_eq, hwf.advanceW, ?_, trivial, h.consumer.advanceW hwf hlt⟩
      show s.accepted ++ _ = s.returned ++ s.buffer.advanceW.queued
      rw [RingBuffer.queued_advanceW hwf hlt, h.fifo, List.append_assoc]
    | _ => exact h.local ⟨rfl, hlt, ha.next⟩ h.consumer

theorem Inv.stepConsumer (h : s.Inv size) : s.stepConsumer.Inv size := by
  have hc := h.consumer
  have hwf := h.wellFormed
  unfold System.stepConsumer
  cases hs : s.consumer with
  | idle => exact h
  | counting op c =>
    rw [hs] at hc
    have hstep := Count.KnowsR.step hwf hc
    cases hcount : c.step s.buffer with
    | inl c' =>
      simp only [hcount] at hstep ⊢
      exact h.local h.producer hstep
    | inr free =>
      simp only [hcount] at hstep ⊢
      refine h.local h.producer ?_
      split_ifs with hpos
      · exact hstep hpos
      · trivial
  | empty op => exact h.local h.producer trivial
  | slot op =>
    rw [hs] at hc
    exact h.local h.producer ⟨rfl, hc⟩
  | load op i =>
    rw [hs] at hc
    obtain ⟨rfl, hpos⟩ := hc
    cases op with
    | peek => exact h.local h.producer trivial
    | read => exact h.local h.producer ⟨rfl, hpos, trivial⟩
  | advance v a =>
    rw [hs] at hc
    obtain ⟨rfl, hpos, ha⟩ := hc
    cases a with
    | store i =>
      obtain rfl : i = s.buffer.succIndex s.buffer.rIndex := ha
      refine ⟨h.size_eq, hwf.advanceR, ?_, h.producer.advanceR hwf hpos, trivial⟩
      show s.accepted = (s.returned ++ _) ++ s.buffer.advanceR.queued
      rw [h.fifo, RingBuffer.queued_advanceR hwf hpos, List.append_assoc, List.singleton_append]
    | _ => exact h.local h.producer ⟨rfl, hpos, ha.next⟩

theorem Inv.next (h : s.Inv size) (e : Event V) : (s.next e).Inv size := by
  cases e with
  | callWrite p => exact h.local trivial h.consumer
  | producer => exact h.stepProducer
  | call op => exact h.local h.producer trivial
  | consumer => exact h.stepConsumer

theorem Inv.run {es : List (Event V)} {t : System V} (h : s.Inv size) (hrun : Run System.next System.ok s es t) :
    t.Inv size :=
  hrun.invariant (fun _ e _ hi => hi.next e) h

end System

/-- With the write index at `w`, the `write` in progress is going to return false. -/
def Producer.Fails (w : UInt32) : Producer V → Prop
  | .full => True
  | .counting _ (.wrapW r) => r.toNat = w.toNat + 1
  | _ => False

/-- With the read index at `r`, the `read` or `peek` in progress is going to return false. -/
def Consumer.Fails (r : UInt32) : Consumer V → Prop
  | .empty _ => True
  | .counting _ (.flatR w) => w.toNat = r.toNat
  | _ => False

namespace System

variable {size : UInt32} {s : System V}

theorem stepConsumer_frame (s : System V) :
    s.stepConsumer.producer = s.producer ∧ s.stepConsumer.buffer.wIndex = s.buffer.wIndex := by
  unfold stepConsumer
  split <;> try split
  all_goals exact ⟨rfl, rfl⟩

theorem stepProducer_frame (s : System V) :
    s.stepProducer.consumer = s.consumer ∧ s.stepProducer.buffer.rIndex = s.buffer.rIndex := by
  unfold stepProducer
  split <;> try split
  all_goals exact ⟨rfl, rfl⟩

/-- The load that seals the fate of a `write` finds the queue full. -/
theorem Inv.full_of_fails (h : s.Inv size) {e : Event V} (hs : ¬ s.producer.Fails s.buffer.wIndex)
    (ht : (s.next e).producer.Fails (s.next e).buffer.wIndex) : s.buffer.count = size.toNat := by
  have hp := h.producer
  have hwf := h.wellFormed
  have hn := hwf.size_lt
  have hw := hwf.wNat_le
  rw [← h.size_eq]
  cases e with
  | callWrite p => exact ht.elim
  | call op => exact absurd ht hs
  | consumer =>
    obtain ⟨h1, h2⟩ := s.stepConsumer_frame
    exact absurd (h1 ▸ h2 ▸ ht) hs
  | producer =>
    simp only [System.next, System.stepProducer] at ht
    cases hprod : s.producer with
    | counting p c =>
      rw [hprod] at hp ht hs
      cases c with
      | wrapR => exact count_eq_size_of_next ht
      | wrapW r =>
        have hr := UInt32.le_iff_toNat_le.mp hp.2.1
        have hne : r.toNat ≠ s.buffer.wIndex.toNat + 1 := hs
        have hpos : 0 < r - s.buffer.wIndex - 1 := by
          rw [UInt32.lt_iff_toNat_lt, UInt32.toNat_sub, UInt32.toNat_sub, UInt32.toNat_one, UInt32.toNat_zero]
          omega
        simp only [Count.step, if_pos hpos] at ht
        exact ht.elim
      | flatR w =>
        obtain ⟨rfl, hle⟩ := hp
        by_cases hpos : 0 < s.buffer.size - s.buffer.wIndex + s.buffer.rIndex
        · simp only [Count.step, if_pos hpos] at ht
          exact ht.elim
        · rw [UInt32.lt_iff_toNat_lt, UInt32.toNat_add, UInt32.toNat_sub, UInt32.toNat_zero] at hpos
          rw [RingBuffer.count_eq, if_pos hle]
          omega
      | compareR w =>
        simp only [Count.step] at ht
        split at ht <;> exact ht.elim
      | _ => exact ht.elim
    | advance p a =>
      rw [hprod] at ht
      cases a <;> exact ht.elim
    | idle =>
      rw [hprod] at ht
      exact absurd ht hs
    | _ =>
      rw [hprod] at ht
      exact ht.elim

/-- The load that seals the fate of a `read` finds the queue empty. -/
theorem Inv.empty_of_fails (h : s.Inv size) {e : Event V} (hs : ¬ s.consumer.Fails s.buffer.rIndex)
    (ht : (s.next e).consumer.Fails (s.next e).buffer.rIndex) : s.buffer.count = 0 := by
  have hc := h.consumer
  have hwf := h.wellFormed
  have hn := hwf.size_lt
  have hr := hwf.rNat_le
  cases e with
  | callWrite p => exact absurd ht hs
  | call op => exact ht.elim
  | producer =>
    obtain ⟨h1, h2⟩ := s.stepProducer_frame
    exact absurd (h1 ▸ h2 ▸ ht) hs
  | consumer =>
    simp only [System.next, System.stepConsumer] at ht
    cases hcons : s.consumer with
    | counting op c =>
      rw [hcons] at hc ht hs
      cases c with
      | flatW => exact (RingBuffer.count_eq_zero_iff hwf).mpr ht
      | wrapW r =>
        obtain ⟨rfl, hlt⟩ := hc
        have hpos : 0 < s.buffer.size - (s.buffer.rIndex - s.buffer.wIndex - 1) := by
          rw [UInt32.lt_iff_toNat_lt, UInt32.toNat_sub, UInt32.toNat_sub, UInt32.toNat_sub, UInt32.toNat_one,
            UInt32.toNat_zero]
          omega
        simp only [Count.step, if_pos hpos] at ht
        exact ht.elim
      | flatR w =>
        have hw := UInt32.le_iff_toNat_le.mp hc.1
        have hne : w.toNat ≠ s.buffer.rIndex.toNat := hs
        have hpos : 0 < s.buffer.size - (s.buffer.size - w + s.buffer.rIndex) := by
          rw [UInt32.lt_iff_toNat_lt, UInt32.toNat_sub, UInt32.toNat_add, UInt32.toNat_sub, UInt32.toNat_zero]
          omega
        simp only [Count.step, if_pos hpos] at ht
        exact ht.elim
      | compareR w =>
        simp only [Count.step] at ht
        split at ht <;> exact ht.elim
      | _ => exact ht.elim
    | advance v a =>
      rw [hcons] at ht
      cases a <;> exact ht.elim
    | load op i =>
      rw [hcons] at ht
      cases op <;> exact ht.elim
    | idle =>
      rw [hcons] at ht
      exact absurd ht hs
    | _ =>
      rw [hcons] at ht
      exact ht.elim

theorem write_fails_full (h : s.Inv size) {p : V} {mid : List (Event V)} {t : System V}
    (hcall : s.producer = .counting p .compareW) (hrun : Run next ok s mid t) (hfull : t.producer = .full) :
    ∃ mid₁ mid₂ u, mid = mid₁ ++ mid₂ ∧ Run next ok s mid₁ u ∧ u.buffer.queued.length = size.toNat := by
  have hs : ¬ s.producer.Fails s.buffer.wIndex := by simp [hcall, Producer.Fails]
  have ht : ¬ ¬ t.producer.Fails t.buffer.wIndex := by simp [hfull, Producer.Fails]
  obtain ⟨mid₁, e, mid₂, u, rfl, h1, -, h3, h4, -⟩ :=
    hrun.crossing (P := fun s => ¬ s.producer.Fails s.buffer.wIndex) hs ht
  refine ⟨mid₁, e :: mid₂, u, rfl, h1, ?_⟩
  rw [RingBuffer.length_queued]
  exact (h.run h1).full_of_fails h3 (not_not.mp h4)

theorem read_fails_empty (h : s.Inv size) {op : ReadCall} {mid : List (Event V)} {t : System V}
    (hcall : s.consumer = .counting op .compareW) (hrun : Run next ok s mid t) (hempty : t.consumer = .empty op) :
    ∃ mid₁ mid₂ u, mid = mid₁ ++ mid₂ ∧ Run next ok s mid₁ u ∧ u.buffer.queued = [] := by
  have hs : ¬ s.consumer.Fails s.buffer.rIndex := by simp [hcall, Consumer.Fails]
  have ht : ¬ ¬ t.consumer.Fails t.buffer.rIndex := by simp [hempty, Consumer.Fails]
  obtain ⟨mid₁, e, mid₂, u, rfl, h1, -, h3, h4, -⟩ :=
    hrun.crossing (P := fun s => ¬ s.consumer.Fails s.buffer.rIndex) hs ht
  refine ⟨mid₁, e :: mid₂, u, rfl, h1, ?_⟩
  rw [← List.length_eq_zero_iff, RingBuffer.length_queued]
  exact (h.run h1).empty_of_fails h3 (not_not.mp h4)

/-- For every capacity that leaves room for the spare slot, and every
interleaving of the accesses of one writer and one reader: the indices stay in
the array, at most `m_nSize` items are queued and they come out in the order in
which they went in; a `write` that returns false saw `m_nSize` items queued at a
step of that call, a `read` or `peek` that returns false saw none. A call that is
not interrupted does what `write` and `read` do at once, and those answer every
sequence of calls as a queue of capacity exactly `m_nSize`. -/
theorem ring_bounded_fifo (size : UInt32) (hsize : size.toNat < 2 ^ 32 - 1) (slots : ℕ → V) :
    (∀ es s, Run next ok (System.init size slots) es s →
      s.buffer.rIndex ≤ size ∧ s.buffer.wIndex ≤ size ∧ s.buffer.queued.length ≤ size.toNat ∧
      s.returned <+: s.accepted ∧ s.accepted = s.returned ++ s.buffer.queued) ∧
    (∀ pre p mid s, Run next ok (System.init size slots) (pre ++ .callWrite p :: mid) s →
      (∀ q, .callWrite q ∉ mid) → s.producer = .full →
      ∃ mid₁ mid₂ u, mid = mid₁ ++ mid₂ ∧ Run next ok (System.init size slots) (pre ++ .callWrite p :: mid₁) u ∧
        u.buffer.queued.length = size.toNat) ∧
    (∀ pre op mid s, Run next ok (System.init size slots) (pre ++ .call op :: mid) s →
      (∀ o, .call o ∉ mid) → s.consumer = .empty op →
      ∃ mid₁ mid₂ u, mid = mid₁ ++ mid₂ ∧ Run next ok (System.init size slots) (pre ++ .call op :: mid₁) u ∧
        u.buffer.queued = []) ∧
    (∀ (s : System V) p, s.producer = .idle → ∃ k,
      Run next ok s (.callWrite p :: List.replicate k .producer)
        { s with
          buffer := (s.buffer.write p).2
          accepted := if (s.buffer.write p).1 then s.accepted ++ [p] else s.accepted }) ∧
    (∀ s : System V, s.consumer = .idle → ∃ k,
      Run next ok s (.call .read :: List.replicate k .consumer)
        { s with buffer := s.buffer.read.2, returned := s.returned ++ s.buffer.read.1.toList }) ∧
    ∀ calls, answers RingBuffer.call (.create size slots) calls = answers (queueCall size.toNat) [] calls := by
  have hinit : (System.init size slots).Inv size := inv_init (by omega) slots
  refine ⟨?_, ?_, ?_, ?_, ?_, ?_⟩
  · intro es s hrun
    have h := hinit.run hrun
    refine ⟨h.size_eq ▸ h.wellFormed.rIndex_le, h.size_eq ▸ h.wellFormed.wIndex_le, ?_, ?_, h.fifo⟩
    · rw [RingBuffer.length_queued, ← h.size_eq]
      exact h.wellFormed.count_le
    · rw [h.fifo]
      exact List.prefix_append _ _
  · intro pre p mid s hrun _ hfull
    obtain ⟨t, hpre, _ | ⟨hok, hmid⟩⟩ := hrun.split
    obtain ⟨mid₁, mid₂, u, rfl, h1, h2⟩ := write_fails_full ((hinit.run hpre).next (.callWrite p)) rfl hmid hfull
    exact ⟨mid₁, mid₂, u, rfl, hpre.append (.cons hok h1), h2⟩
  · intro pre op mid s hrun _ hempty
    obtain ⟨t, hpre, _ | ⟨hok, hmid⟩⟩ := hrun.split
    obtain ⟨mid₁, mid₂, u, rfl, h1, h2⟩ := read_fails_empty ((hinit.run hpre).next (.call op)) rfl hmid hempty
    exact ⟨mid₁, mid₂, u, rfl, hpre.append (.cons hok h1), h2⟩
  · rintro ⟨b, w, c, a, r⟩ p hidle
    obtain rfl : w = .idle := hidle
    obtain ⟨k, hk⟩ := solo_write (s := System.next ⟨b, .idle, c, a, r⟩ (.callWrite p)) rfl
    exact ⟨k, .cons rfl hk⟩
  · rintro ⟨b, w, c, a, r⟩ hidle
    obtain rfl : c = .idle := hidle
    obtain ⟨k, hk⟩ := solo_read (s := System.next ⟨b, w, .idle, a, r⟩ (.call .read)) rfl
    exact ⟨k, .cons rfl hk⟩
  · intro calls
    have hwf : (RingBuffer.create size slots).WellFormed := RingBuffer.wellFormed_create (by omega) slots
    simpa [RingBuffer.create, RingBuffer.queued, RingBuffer.count, window] using RingBuffer.answers_call hwf calls

theorem ring_bounded_fifo_two :
    (2 : UInt32).toNat < 2 ^ 32 - 1 ∧
      answers RingBuffer.call (.create 2 fun _ => 0) [.write 7, .write 8, .write 9, .read, .peek] =
        [.wrote true, .wrote true, .wrote false, .got (some 7), .got (some 8)] :=
  ⟨by decide, ((ring_bounded_fifo 2 (by decide) fun _ => 0).2.2.2.2.2 _).trans rfl⟩

end System

end CppBase.Ring
