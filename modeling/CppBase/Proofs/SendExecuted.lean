import Mathlib.Data.List.ReduceOption
import CppBase.Sanity.RedisEffects
import CppBase.Sanity.RingAlone

/-! Requests handed to `send` while the connection works: those that reach the
queue are executed once and in order by the next `timer_ms`. The return value
does not say whether a request reached it: on a full queue `send` frees the
request and returns true. -/

namespace CppBase.RedisTool

open CppBase.Lib CppBase.Ring

/-- Not one of the objects that `LoadScriptMgr::load` makes when `n` have been made. -/
def RedisRequest.outside (n : ℕ) (r : RedisRequest) : Bool :=
  r.address < n || r.cls ≠ .loadScript r.type

/-- `send` of a request, or a run of `timer_ms`. -/
inductive Op
  | send (p : RedisRequest)
  | timerMs (nowMs : UInt64)
  deriving DecidableEq

def Op.event : Op → Event
  | .send p => .send (some p)
  | .timerMs nowMs => .timerMs nowMs

def Op.request : Op → Option RedisRequest
  | .send p => some p
  | .timerMs _ => none

def Op.record (s : RedisManager) : Op → List SendRecord
  | .send p => [⟨p, true, s.rbIn.queued.length < 8192⟩]
  | .timerMs _ => []

theorem Op.mem_of_request {ops : List Op} {p : RedisRequest} (h : p ∈ ops.filterMap Op.request) :
    .send p ∈ ops := by
  obtain ⟨op, hop, hp⟩ := List.mem_filterMap.mp h
  cases op with
  | send q =>
    obtain rfl := Option.some.inj hp
    exact hop
  | timerMs nowMs => cases hp

namespace RedisManager

variable {s t : RedisManager} {n : ℕ} {old : List RedisRequest}

structure Live (s : RedisManager) : Prop where
  dispatching : s.dispatching = true
  working : s.master.stat = .working
  context : ∃ c, s.master.context = some c

/-- A working manager, whatever its queue holds, where the history begins. -/
structure Ready (s : RedisManager) : Prop where
  live : s.Live
  wellFormed : s.rbIn.WellFormed
  size : s.rbIn.size = maxRingBufferSlotCount
  sends : s.sends = []
  executed : s.executed = []

/-- The requests in the queue that `load` has not put there since. -/
def waiting (s : RedisManager) (n : ℕ) :
    List RedisRequest := s.rbIn.queued.reduceOption.filter (RedisRequest.outside n)

/-- An object that neither waits in the queue nor is one that `load` makes. -/
structure New (s : RedisManager) (p : RedisRequest) : Prop where
  outside : p.outside s.nextAddress = true
  notQueued : some p ∉ s.rbIn.queued

/-- Every call of `send` so far told the truth, and once `timer_ms` has run again
the requests it accepted have been executed after those that waited at the start,
each once and in their order. -/
def AcceptedAreExecuted (s₀ : RedisManager) (ops : List Op) : Prop :=
  ∃ s, runAll handle s₀ (ops.map Op.event) = .ok s ∧
    (∀ r ∈ s.sends, r.returned = true ↔ r.placed = true) ∧
    ∀ drains : List UInt64, drains ≠ [] → ∃ t, runAll handle s (drains.map .timerMs) = .ok t ∧
      t.executed.filter (RedisRequest.outside s₀.nextAddress) =
        s₀.waiting s₀.nextAddress ++ (s.sends.filter SendRecord.returned).map SendRecord.request ∧
      ∀ r ∈ s.sends, r.returned = true → t.executed.count r.request = 1

/-- No `send` of the sequence finds the queue full. -/
def Room (s₀ : RedisManager) (ops : List Op) : Prop :=
  Along handle (fun s e => ∀ p, e = .send p → s.rbIn.queued.length < 8192) s₀ (ops.map Op.event)

/-- The queue and the history, whatever has been sent and drained so far; `old` waited at the start. -/
structure QueueInv (n : ℕ) (old : List RedisRequest) (s : RedisManager) : Prop where
  live : s.Live
  wellFormed : s.rbIn.WellFormed
  size : s.rbIn.size = maxRingBufferSlotCount
  fresh : n ≤ s.nextAddress
  order : (s.executed ++ s.rbIn.queued.reduceOption).filter (RedisRequest.outside n) =
    old ++ (s.sends.filter SendRecord.placed).map SendRecord.request
  returned : ∀ r ∈ s.sends, r.returned = true

theorem Ready.queueInv (h : s.Ready) : s.QueueInv s.nextAddress (s.waiting s.nextAddress) :=
  ⟨h.live, h.wellFormed, h.size, le_rfl, by simp [h.sends, h.executed, waiting], by simp [h.sends]⟩

section Load

theorem QueueInv.loadItem (h : s.QueueInv n old) (nowMs : UInt64) (it : RedisScriptItem) :
    (RedisManager.loadItem nowMs s it).QueueInv n old := by
  unfold RedisManager.loadItem
  split
  · let r : RedisRequest := ⟨s.nextAddress, it.file, .loadScript it.file⟩
    show (send _ (some r)).2.QueueInv n old
    rw [send_eq]
    obtain ⟨-, hq⟩ := RingBuffer.write_queued h.wellFormed (some r)
    refine ⟨⟨h.live.dispatching, h.live.working, h.live.context⟩, h.wellFormed.write _,
      (RingBuffer.write_size _ _).trans h.size, Nat.le_succ_of_le h.fresh, ?_, h.returned⟩
    show (s.executed ++ (s.rbIn.write (some r)).2.queued.reduceOption).filter (RedisRequest.outside n) = _
    rw [hq, offer, ← h.order]
    split
    · simp [List.reduceOption_append, List.filter_append, RedisRequest.outside, r, h.fresh]
    · rfl
  · exact h

theorem QueueInv.load (h : s.QueueInv n old) (nowMs : UInt64) : (s.load nowMs).QueueInv n old := by
  unfold RedisManager.load
  generalize s.scripts.toList = items
  induction items generalizing s with
  | nil => exact h
  | cons it items ih => exact ih (h.loadItem nowMs it)

end Load

section Drain

/-- With a call of `read` for each item and one more, the loop empties the queue into `Execute`. -/
theorem drain_spec {fuel : ℕ} (hlive : s.Live) (hwf : s.rbIn.WellFormed) (hfuel : s.rbIn.queued.length < fuel) :
    ∃ t, drain fuel s = .ok t ∧ t.Live ∧ t.rbIn.WellFormed ∧ t.rbIn.size = s.rbIn.size ∧ t.rbIn.queued = [] ∧
      t.nextAddress = s.nextAddress ∧ t.sends = s.sends ∧
      t.executed = s.executed ++ s.rbIn.queued.reduceOption := by
  induction fuel generalizing s with
  | zero => omega
  | succ fuel ih =>
    obtain ⟨hhead, htail⟩ := RingBuffer.read_queued hwf
    have hsize := s.rbIn.read_size
    have hwf' := hwf.read
    rcases hread : s.rbIn.read with ⟨o, b⟩
    rw [hread] at hhead htail hsize hwf'
    simp only [poll] at hhead htail
    cases hq : s.rbIn.queued with
    | nil =>
      rw [hq] at hhead
      subst hhead
      exact ⟨s, by simp only [drain, hread, List.head?_nil], hlive, hwf, rfl, hq, rfl, rfl, by simp⟩
    | cons x rest =>
      rw [hq] at hhead htail hfuel
      rw [List.head?_cons] at hhead
      subst hhead
      have hlen : b.queued.length < fuel := by
        rw [htail, List.tail_cons]
        simpa using hfuel
      cases x with
      | none =>
        obtain ⟨t, h1, h2, h3, h4, h5, h6, h7, h8⟩ :=
          ih (s := { s with rbIn := b }) ⟨hlive.dispatching, hlive.working, hlive.context⟩ hwf' hlen
        refine ⟨t, by simp only [drain, hread, h1], h2, h3, h4.trans hsize, h5, h6, h7, ?_⟩
        rw [h8, htail]
        simp
      | some request =>
        obtain ⟨c, hc⟩ := hlive.context
        obtain ⟨u, hu, heff⟩ := execute_ok (s := { s with rbIn := b }) hc request
        have hlive' : u.Live := by
          obtain ⟨c', hc', -⟩ := heff.context
          exact ⟨heff.dispatching.trans hlive.dispatching, heff.stat.trans hlive.working, c', hc'⟩
        obtain ⟨t, h1, h2, h3, h4, h5, h6, h7, h8⟩ :=
          ih hlive' (by rw [heff.rbIn]; exact hwf') (by rw [heff.rbIn]; exact hlen)
        refine ⟨t, by simp only [drain, hread, hu, h1], h2, h3, ?_, h5, h6.trans heff.nextAddress,
          h7.trans heff.sends, ?_⟩
        · rw [h4, heff.rbIn]
          exact hsize
        · rw [h8, heff.executed, heff.rbIn, htail]
          simp

end Drain

theorem sends_load (s : RedisManager) (nowMs : UInt64) : (s.load nowMs).sends = s.sends := by
  have h := besidesQueue_load s nowMs
  simp only [besidesQueue, Prod.mk.injEq] at h
  tauto

theorem QueueInv.timerMs (h : s.QueueInv n old) (nowMs : UInt64) :
    ∃ t, s.handle (.timerMs nowMs) = .ok t ∧ t.QueueInv n old ∧ t.rbIn.queued = [] ∧ t.sends = s.sends := by
  have hload := h.load nowMs
  have hfuel : (s.load nowMs).rbIn.queued.length < (s.load nowMs).rbIn.size.toNat + 1 := by
    rw [RingBuffer.length_queued]
    have := hload.wellFormed.count_le
    omega
  obtain ⟨t, h1, h2, h3, h4, h5, h6, h7, h8⟩ := drain_spec hload.live hload.wellFormed hfuel
  have hrun : s.handle (.timerMs nowMs) = .ok t := by
    simp only [handle, h.live.dispatching, if_true, RedisManager.timerMs, h.live.working, ne_eq, not_true_eq_false,
      if_false, h1]
  refine ⟨t, hrun, ⟨h2, h3, h4.trans hload.size, h6 ▸ hload.fresh, ?_, ?_⟩, h5, h7.trans (sends_load s nowMs)⟩
  · rw [h5, h8, h7, ← hload.order]
    simp
  · rw [h7]
    exact hload.returned

section Send

/-- `send` always returns true; the request is appended exactly if there was room. -/
theorem sends_sendFrom (h : s.QueueInv n old) (p : RedisRequest) :
    (s.sendFrom (some p)).sends = s.sends ++ [⟨p, true, s.rbIn.queued.length < 8192⟩] := by
  obtain ⟨-, hq⟩ := RingBuffer.write_queued h.wellFormed (some p)
  rw [h.size, show maxRingBufferSlotCount.toNat = 8192 from rfl, offer] at hq
  simp only [sendFrom, send_eq, hq]
  split <;> rename_i hlt <;> simp [hlt]

theorem rbIn_sendFrom (s : RedisManager) (p : RedisRequest) :
    (s.sendFrom (some p)).rbIn = (s.rbIn.write (some p)).2 := by
  simp only [sendFrom, send_eq]

theorem QueueInv.sendFrom (h : s.QueueInv n old) {p : RedisRequest} (hp : p.outside n = true) :
    (s.sendFrom (some p)).QueueInv n old := by
  have hsends := sends_sendFrom h p
  have hbuf := rbIn_sendFrom s p
  obtain ⟨-, hq⟩ := RingBuffer.write_queued h.wellFormed (some p)
  have hframe := besidesQueue_sendFrom s (some p)
  simp only [besidesQueue, Prod.mk.injEq] at hframe
  obtain ⟨hmaster, -, -, hdis, -, -, hexec, -⟩ := hframe
  refine ⟨⟨hdis.trans h.live.dispatching, hmaster ▸ h.live.working, hmaster ▸ h.live.context⟩, ?_, ?_, ?_, ?_, ?_⟩
  · rw [hbuf]
    exact h.wellFormed.write _
  · rw [hbuf, RingBuffer.write_size]
    exact h.size
  · simp only [RedisManager.sendFrom, send_eq]
    exact h.fresh
  · rw [h.size, show maxRingBufferSlotCount.toNat = 8192 from rfl, offer] at hq
    rw [hsends, hbuf, hq, hexec, List.filter_append s.sends, List.map_append, ← List.append_assoc, ← h.order]
    split <;> rename_i hlt
    · simp [List.reduceOption_append, hlt, hp]
    · simp [hlt]
  · rw [hsends]
    intro r hr
    rcases List.mem_append.mp hr with hr | hr
    · exact h.returned r hr
    · rw [List.mem_singleton.mp hr]

end Send

section Runs

theorem QueueInv.op (h : s.QueueInv n old) (op : Op) (hop : ∀ p, op = .send p → p.outside n = true) :
    ∃ t, s.handle op.event = .ok t ∧ t.QueueInv n old ∧ t.sends = s.sends ++ op.record s := by
  cases op with
  | send p => exact ⟨_, rfl, h.sendFrom (hop p rfl), sends_sendFrom h p⟩
  | timerMs nowMs =>
    obtain ⟨t, h1, h2, -, h4⟩ := h.timerMs nowMs
    exact ⟨t, h1, h2, by simpa [Op.record] using h4⟩

/-- A run adds one entry for each `send`, in order, and they all say that the
request was placed exactly if none of them found the queue full. -/
theorem QueueInv.ops (h : s.QueueInv n old) (ops : List Op) (hops : ∀ p, .send p ∈ ops → p.outside n = true) :
    ∃ t rs, runAll handle s (ops.map Op.event) = .ok t ∧ t.QueueInv n old ∧ t.sends = s.sends ++ rs ∧
      rs.map SendRecord.request = ops.filterMap Op.request ∧ ((∀ r ∈ rs, r.placed = true) ↔ s.Room ops) := by
  induction ops generalizing s with
  | nil =>
    exact ⟨s, [], rfl, h, by simp, rfl, iff_of_true nofun along_nil⟩
  | cons op ops ih =>
    obtain ⟨u, hu, hinv, hrec⟩ := h.op op fun p hp => hops p (by simp [hp])
    obtain ⟨t, rs, h1, h2, h3, h4, h5⟩ := ih hinv fun p hp => hops p (by simp [hp])
    refine ⟨t, op.record s ++ rs, by rw [List.map_cons, runAll_cons hu, h1], h2, ?_, ?_, ?_⟩
    · rw [h3, hrec, List.append_assoc]
    · cases op <;> simp [Op.record, Op.request, h4, List.filterMap_cons]
    · rw [Room, List.map_cons, along_cons hu, ← Room, ← h5]
      cases op <;> simp [Op.record, Op.event]

theorem QueueInv.drains (h : s.QueueInv n old) {drains : List UInt64} (hne : drains ≠ []) :
    ∃ t, runAll handle s (drains.map .timerMs) = .ok t ∧ t.QueueInv n old ∧ t.rbIn.queued = [] ∧
      t.sends = s.sends := by
  induction drains generalizing s with
  | nil => exact absurd rfl hne
  | cons nowMs drains ih =>
    obtain ⟨u, hu, hinv, hempty, hsends⟩ := h.timerMs nowMs
    rw [List.map_cons, runAll_cons hu]
    by_cases hd : drains = []
    · subst hd
      exact ⟨u, rfl, hinv, hempty, hsends⟩
    · obtain ⟨t, h1, h2, h3, h4⟩ := ih hinv hd
      exact ⟨t, h1, h2, h3, h4.trans hsends⟩

end Runs

section Acceptance

variable {ops : List Op}

/-- Where every request was placed, the requests are executed as sent. -/
theorem QueueInv.executed (h : s.QueueInv n old) (hplaced : ∀ r ∈ s.sends, r.placed = true)
    (hnodup : (s.sends.map SendRecord.request).Nodup) (hnew : ∀ r ∈ s.sends, r.request ∉ old)
    {drains : List UInt64} (hne : drains ≠ []) :
    ∃ t, runAll handle s (drains.map .timerMs) = .ok t ∧
      t.executed.filter (RedisRequest.outside n) =
        old ++ (s.sends.filter SendRecord.returned).map SendRecord.request ∧
      ∀ r ∈ s.sends, r.returned = true → t.executed.count r.request = 1 := by
  obtain ⟨t, h1, h2, h3, h4⟩ := h.drains hne
  have hall : t.executed.filter (RedisRequest.outside n) = old ++ s.sends.map SendRecord.request := by
    have horder := h2.order
    rwa [h3, List.reduceOption_nil, List.append_nil, h4, List.filter_eq_self.mpr hplaced] at horder
  refine ⟨t, h1, by rw [hall, List.filter_eq_self.mpr h.returned], ?_⟩
  intro r hr _
  have hmem : r.request ∈ s.sends.map SendRecord.request := List.mem_map_of_mem hr
  have houtside : r.request.outside n = true := by
    have hall' := List.mem_append_right old hmem
    rw [← hall] at hall'
    exact (List.mem_filter.mp hall').2
  rw [← List.count_filter houtside, hall, List.count_append, List.count_eq_zero.mpr (hnew r hr), Nat.zero_add]
  exact List.count_eq_one_of_mem hnodup hmem

/-- Where the record is true to the queue, no `send` has found it full. -/
theorem room_of_accepted {s₀ : RedisManager} (h : s₀.Ready) (hops : ∀ p, .send p ∈ ops → s₀.New p)
    (hacc : AcceptedAreExecuted s₀ ops) : s₀.Room ops := by
  obtain ⟨s, rs, h1, h2, h3, -, h5⟩ := h.queueInv.ops ops fun p hp => (hops p hp).outside
  obtain ⟨s', hrun, htruth, -⟩ := hacc
  obtain rfl : s' = s := by
    rw [h1] at hrun
    exact (Except.ok.inj hrun).symm
  rw [h.sends, List.nil_append] at h3
  rw [← h5, ← h3]
  intro r hr
  exact (htruth r hr).mp (h2.returned r hr)

/-- With distinct requests, none of them queued already or an object that `load`
makes for itself: the calls of `send` keep their promise exactly if none of them
finds 8192 requests queued. -/
theorem accepted_are_executed_iff {s₀ : RedisManager} (h : s₀.Ready) (ops : List Op)
    (hops : ∀ p, .send p ∈ ops → s₀.New p) (hnodup : (ops.filterMap Op.request).Nodup) :
    AcceptedAreExecuted s₀ ops ↔ s₀.Room ops := by
  refine ⟨room_of_accepted h hops, ?_⟩
  intro hroom
  obtain ⟨s, rs, h1, h2, h3, h4, h5⟩ := h.queueInv.ops ops fun p hp => (hops p hp).outside
  rw [h.sends, List.nil_append] at h3
  have hplaced : ∀ r ∈ s.sends, r.placed = true := by
    rw [h3]
    exact h5.mpr hroom
  refine ⟨s, h1, fun r hr => ⟨fun _ => hplaced r hr, fun _ => h2.returned r hr⟩, ?_⟩
  intro drains hne
  have hrequests : s.sends.map SendRecord.request = ops.filterMap Op.request := by rw [h3, h4]
  refine h2.executed hplaced (hrequests ▸ hnodup) ?_ hne
  intro r hr hold
  have hsent : .send r.request ∈ ops := by
    have hmem : r.request ∈ ops.filterMap Op.request := hrequests ▸ List.mem_map_of_mem hr
    exact Op.mem_of_request hmem
  apply (hops _ hsent).notQueued
  exact List.reduceOption_mem_iff.mp (List.mem_filter.mp hold).1

end Acceptance

section Full

def justWorking : RedisManager :=
  { init (fun _ => none) default ⟨"10.0.0.1", 6379⟩ with
    master := ⟨.working, ⟨"10.0.0.1", 6379⟩, some ⟨0, none, true, []⟩, 100, 0⟩
    dispatching := true }

theorem ready_justWorking : justWorking.Ready :=
  ⟨⟨rfl, rfl, _, rfl⟩, RingBuffer.wellFormed_create (by decide) _, rfl, rfl, rfl⟩

def query (i : ℕ) : RedisRequest := ⟨i, "query", .other⟩

theorem new_query (i : ℕ) : justWorking.New (query i) := ⟨by simp [query, RedisRequest.outside], List.not_mem_nil⟩

theorem accepted_are_executed_iff_two :
    AcceptedAreExecuted justWorking [.send (query 0), .timerMs 1000, .send (query 1)] := by
  refine (accepted_are_executed_iff ready_justWorking _ (by simp [new_query]) (by decide)).mpr ?_
  refine (along_cons rfl).mpr ⟨fun _ _ => by decide, ?_⟩
  refine (along_cons rfl).mpr ⟨nofun, ?_⟩
  exact (along_cons rfl).mpr ⟨fun _ _ => by decide, along_nil⟩

/-- Without a run of `timer_ms` in between, the queue fills up to its capacity. -/
theorem QueueInv.length_sends (h : s.QueueInv n old) {ps : List RedisRequest} (hps : ∀ p ∈ ps, p.outside n = true)
    (hrun : runAll handle s ((ps.map Op.send).map Op.event) = .ok t) :
    t.rbIn.queued.length = min (s.rbIn.queued.length + ps.length) 8192 := by
  induction ps generalizing s with
  | nil =>
    obtain rfl : s = t := by simpa using hrun
    have := h.wellFormed.count_le
    rw [h.size, ← RingBuffer.length_queued] at this
    change s.rbIn.queued.length ≤ 8192 at this
    simp [this]
  | cons p ps ih =>
    rw [List.map_cons, List.map_cons, runAll_cons (t := s.sendFrom (some p)) rfl] at hrun
    rw [ih (h.sendFrom (hps p (by simp))) (fun q hq => hps q (by simp [hq])) hrun, rbIn_sendFrom,
      (RingBuffer.write_queued h.wellFormed (some p)).2, offer, h.size]
    change min ((if s.rbIn.queued.length < 8192 then _ else _ : Bool × List _).2.length + ps.length) 8192 = _
    split <;> simp <;> omega

/-- With 8192 requests queued, `send` frees the next one and returns true all the same. -/
theorem send_full_queue_loses :
    ¬ AcceptedAreExecuted justWorking (((List.range 8193).map query).map .send) := by
  intro hacc
  have hnew : ∀ k, ∀ p ∈ (List.range k).map query, justWorking.New p := by simp [new_query]
  have houtside : ∀ k, ∀ p ∈ (List.range k).map query, p.outside justWorking.nextAddress = true :=
    fun k p hp => (hnew k p hp).outside
  have hroom := room_of_accepted ready_justWorking (fun p hp => hnew 8193 p (by simpa using hp)) hacc
  obtain ⟨t, -, ht, -⟩ := ready_justWorking.queueInv.ops (((List.range 8192).map query).map .send)
    fun p hp => houtside 8192 p (by simpa using hp)
  have hlen := ready_justWorking.queueInv.length_sends (houtside 8192) ht
  have hlt := hroom _ _ [] t (by rw [List.range_succ, List.map_append, List.map_append, List.map_append]; rfl) ht
    (some (query 8192)) rfl
  rw [hlen, List.length_map, List.length_range] at hlt
  omega

end Full

end RedisManager

end CppBase.RedisTool
