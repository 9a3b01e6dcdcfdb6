import CppBase.Sanity.RingIndices
import CppBase.Spec.RequestThreads

/-! The request queue has two writers, and the ring buffer is made for one: two
writes that overlap can store into the same slot. Without such an overlap no
request is lost or duplicated. -/

namespace CppBase.RequestQueue

open CppBase.Lib CppBase.Ring

variable {V : Type} {b : RingBuffer V}

/-- Between two parts of a `write` there is room for the item, and later it is in its slot. -/
def Write.Knows (b : RingBuffer V) : Write V → Prop
  | .test _ => True
  | .store _ => b.count < b.size.toNat
  | .advance p => b.count < b.size.toNat ∧ b.slots b.wIndex.toNat = p

def RedisThread.Knows (b : RingBuffer V) : RedisThread V → Prop
  | .write w _ _ => w.Knows b
  | .read => 0 < b.count
  | .advance v => 0 < b.count ∧ v = b.slots b.rIndex.toNat
  | _ => True

namespace Threads

/-- An item whose `write` returned true has been read or is queued, and as often as
it was written: once for a request that was sent once. -/
def NothingLost [BEq V] (s : Threads V) : Prop :=
  ∀ p ∈ s.accepted, s.returned.count p + s.buffer.queued.count p = s.accepted.count p

/-- A `write` begins only while the other thread is not inside one. -/
def Exclusive (s : Threads V) : Event V → Prop
  | .external => ∀ p, s.external = some (.test p) → s.redis.insideWrite = false
  | .redis => ∀ p todo drain w, s.redis = .write (.test p) todo drain → s.external = some w → w.inside = false
  | _ => True

structure Inv (s : Threads V) : Prop where
  wellFormed : s.buffer.WellFormed
  fifo : s.accepted = s.returned ++ s.buffer.queued
  external : ∀ w, s.external = some w → w.Knows s.buffer
  redis : s.redis.Knows s.buffer
  alone : ∀ w, s.external = some w → w.inside = true → s.redis.insideWrite = false

end Threads

section Steps

variable {w w' : Write V} {r : RedisThread V}

theorem Write.Knows.step (hw : w.Knows b) (h : b.WellFormed) :
    (w.step b).1.WellFormed ∧ (w.step b).1.queued = b.queued ++ (w.step b).2.2 ∧
      ∀ w', (w.step b).2.1 = some w' → w'.Knows (w.step b).1 ∧ w'.inside = true := by
  cases w with
  | test p =>
    refine ⟨h, by simp [Write.step], ?_⟩
    intro w' hw'
    simp only [Write.step] at hw'
    split at hw'
    · rename_i hroom
      obtain rfl := Option.some.inj hw'
      exact ⟨(RingBuffer.isWritable_iff h).mp hroom, rfl⟩
    · cases hw'
  | store p =>
    refine ⟨h.setSlot _ _, ?_, ?_⟩
    · simp only [Write.step, List.append_nil]
      exact RingBuffer.queued_setSlot h p
    · intro w' hw'
      obtain rfl := Option.some.inj hw'
      exact ⟨⟨hw, RingBuffer.setSlot_slots_self _ _⟩, rfl⟩
  | advance p =>
    obtain ⟨hlt, rfl⟩ := hw
    exact ⟨h.advanceW, RingBuffer.queued_advanceW h hlt, fun w' hw' => by cases hw'⟩

/-- The other writer, unless both are inside a `write`. -/
theorem Write.Knows.other (hw' : w'.Knows b) (hex : w.inside = true → w'.inside = false) :
    w'.Knows (w.step b).1 := by
  cases w with
  | test p => exact hw'
  | _ =>
    cases w' with
    | test q => trivial
    | _ => exact absurd (hex rfl) (by simp [Write.inside])

/-- The reading thread, unless it is inside a `write` of its own. -/
theorem RedisThread.Knows.other (hr : r.Knows b) (h : b.WellFormed) (hw : w.Knows b)
    (hex : w.inside = true → r.insideWrite = false) : r.Knows (w.step b).1 := by
  have hzero := RingBuffer.count_eq_zero_iff h
  cases r with
  | write w' todo drain => exact Write.Knows.other hr hex
  | read =>
    cases w with
    | advance p =>
      show 0 < b.advanceW.count
      rw [RingBuffer.count_advanceW h hw.1]
      omega
    | _ => exact hr
  | advance v =>
    obtain ⟨hpos, rfl⟩ := hr
    cases w with
    | test p => exact ⟨hpos, rfl⟩
    | store p =>
      have hne : b.rIndex.toNat ≠ b.wIndex.toNat := by omega
      refine ⟨hpos, ?_⟩
      show _ = Function.update b.slots b.wIndex.toNat p b.rIndex.toNat
      rw [Function.update_of_ne hne]
    | advance p =>
      refine ⟨?_, rfl⟩
      show 0 < b.advanceW.count
      rw [RingBuffer.count_advanceW h hw.1]
      omega
  | _ => trivial

theorem Write.Knows.advanceR (hw : w.Knows b) (h : b.WellFormed) (hpos : 0 < b.count) : w.Knows b.advanceR := by
  have hcount := RingBuffer.count_advanceR h hpos
  have hle := h.count_le
  have hlt : b.advanceR.count < b.size.toNat := by omega
  cases w with
  | test p => trivial
  | store p => exact hlt
  | advance p => exact ⟨hlt, hw.2⟩

end Steps

namespace Threads

variable {s : Threads V}

theorem inv_init (slots : ℕ → V) : (init slots).Inv := by
  refine ⟨RingBuffer.wellFormed_create (by decide) slots, rfl, ?_, trivial, ?_⟩
  · intro w hw
    cases hw
  · intro w hw
    cases hw

theorem Inv.stepExternal (h : s.Inv) (hex : s.Exclusive .external) : s.stepExternal.Inv := by
  unfold Threads.stepExternal
  cases hext : s.external with
  | none => exact h
  | some w =>
    have hw := h.external w hext
    obtain ⟨h1, h2, h3⟩ := hw.step h.wellFormed
    have halone : ∀ w', (w.step s.buffer).2.1 = some w' → s.redis.insideWrite = false := by
      intro w' hw'
      cases w with
      | test p => exact hex p hext
      | _ => exact h.alone _ hext rfl
    refine ⟨h1, ?_, fun w' hw' => (h3 w' hw').1, ?_, fun w' hw' _ => halone w' hw'⟩
    · show s.accepted ++ _ = s.returned ++ (w.step s.buffer).1.queued
      rw [h2, h.fifo, List.append_assoc]
    · exact h.redis.other h.wellFormed hw (h.alone w hext)

theorem Inv.stepRedis (h : s.Inv) (hex : s.Exclusive .redis) : s.stepRedis.Inv := by
  have hr := h.redis
  have hwf := h.wellFormed
  unfold Threads.stepRedis
  cases hred : s.redis with
  | idle => exact h
  | load todo drain =>
    cases todo with
    | nil => cases drain <;> exact ⟨hwf, h.fifo, h.external, trivial, fun _ _ _ => rfl⟩
    | cons p todo => exact ⟨hwf, h.fifo, h.external, trivial, fun _ _ _ => rfl⟩
  | write w todo drain =>
    rw [hred] at hr
    obtain ⟨h1, h2, h3⟩ := Write.Knows.step hr hwf
    have hother : ∀ w', s.external = some w' → w.inside = true → w'.inside = false := by
      intro w' hext hin
      cases hw' : w'.inside with
      | false => rfl
      | true =>
        have := h.alone w' hext hw'
        rw [hred] at this
        exact absurd hin (by simp [RedisThread.insideWrite] at this; simp [this])
    refine ⟨h1, ?_, fun w' hext => (h.external w' hext).other (hother w' hext), ?_, ?_⟩
    · show s.accepted ++ _ = s.returned ++ (w.step s.buffer).1.queued
      rw [h2, h.fifo, List.append_assoc]
    · show (RedisThread.resume todo drain (w.step s.buffer).2.1).Knows (w.step s.buffer).1
      cases hleft : (w.step s.buffer).2.1 with
      | none => trivial
      | some w' => exact (h3 w' hleft).1
    · intro w' hext hin
      -- an outside thread inside its `write` keeps this one from being inside one
      cases w with
      | test p => exact absurd hin (by simp [hex p todo drain w' hred hext])
      | _ => exact absurd hin (by simp [hother w' hext rfl])
  | test =>
    by_cases hread : s.buffer.isReadable
    · simp only [hread, if_true]
      exact ⟨hwf, h.fifo, h.external, (RingBuffer.isReadable_iff hwf).mp hread, fun _ _ _ => rfl⟩
    · simp only [hread, if_false, Bool.false_eq_true]
      exact ⟨hwf, h.fifo, h.external, trivial, fun _ _ _ => rfl⟩
  | read =>
    rw [hred] at hr
    exact ⟨hwf, h.fifo, h.external, ⟨hr, rfl⟩, fun _ _ _ => rfl⟩
  | advance v =>
    rw [hred] at hr
    obtain ⟨hpos, rfl⟩ := hr
    refine ⟨hwf.advanceR, ?_, fun w hext => (h.external w hext).advanceR hwf hpos, trivial, fun _ _ _ => rfl⟩
    show s.accepted = (s.returned ++ _) ++ s.buffer.advanceR.queued
    rw [h.fifo, RingBuffer.queued_advanceR hwf hpos, List.append_assoc, List.singleton_append]

theorem Inv.next (h : s.Inv) {e : Event V} (hex : s.Exclusive e) : (s.next e).Inv := by
  cases e with
  | send p =>
    refine ⟨h.wellFormed, h.fifo, ?_, h.redis, ?_⟩
    · intro w hw
      obtain rfl := Option.some.inj hw
      trivial
    · intro w hw hin
      obtain rfl := Option.some.inj hw
      cases hin
  | external => exact h.stepExternal hex
  | tick todo drain => exact ⟨h.wellFormed, h.fifo, h.external, trivial, fun _ _ _ => rfl⟩
  | redis => exact h.stepRedis hex

/-- Where no `write` begins while the other thread is inside one, every item
that was written is read exactly once or still queued. -/
theorem nothing_lost_of_exclusive [BEq V] (slots : ℕ → V) {es : List (Event V)} {s : Threads V}
    (h : Run next (fun s e => s.ok e ∧ s.Exclusive e) (init slots) es s) : s.NothingLost := by
  have hinv : s.Inv := h.invariant (fun _ _ hok hi => hi.next hok.2) (inv_init slots)
  intro p _
  rw [hinv.fifo, List.count_append]

theorem nothing_lost_of_exclusive_turns :
    ∃ es, ∃ s : Threads ℕ, Run next (fun s e => s.ok e ∧ s.Exclusive e) (init fun _ => 0) es s ∧
      s.accepted = [7, 8] ∧ s.returned = [7] ∧ s.NothingLost := by
  have hrun : Run next (fun s e => s.ok e ∧ s.Exclusive e) (init fun _ => 0)
      [.send 7, .external, .external, .external, .tick [8] true, .redis, .redis, .redis, .redis, .redis, .redis,
        .redis, .redis] _ :=
    .cons ⟨rfl, trivial⟩ <| .cons ⟨nofun, fun _ _ => rfl⟩ <| .cons ⟨nofun, nofun⟩ <| .cons ⟨nofun, nofun⟩ <|
    .cons ⟨rfl, trivial⟩ <| .cons ⟨nofun, nofun⟩ <| .cons ⟨nofun, nofun⟩ <| .cons ⟨nofun, nofun⟩ <|
    .cons ⟨nofun, nofun⟩ <| .cons ⟨nofun, nofun⟩ <| .cons ⟨nofun, nofun⟩ <| .cons ⟨nofun, nofun⟩ <|
    .cons ⟨nofun, nofun⟩ <| .nil _
  exact ⟨_, _, hrun, rfl, rfl, nothing_lost_of_exclusive _ hrun⟩

/-- The outside thread has stored 7 when `load` writes 8 into the same slot; both
advance the index, both writes return true, and 7 is gone. -/
theorem overlapping_writes_lose :
    ∃ es, ∃ s : Threads ℕ, Run next ok (init fun _ => 0) es s ∧ s.accepted = [8, 7] ∧ s.returned = [] ∧
      s.buffer.queued = [8, 0] ∧ ¬ s.NothingLost := by
  refine ⟨[.send 7, .external, .external, .tick [8] true, .redis, .redis, .redis, .redis, .external], _,
    .cons rfl <| .cons nofun <| .cons nofun <| .cons rfl <| .cons nofun <| .cons nofun <| .cons nofun <|
    .cons nofun <| .cons nofun <| .nil _, rfl, rfl, rfl, ?_⟩
  intro h
  have := h 7 (by decide)
  revert this
  decide

end Threads

end CppBase.RequestQueue
