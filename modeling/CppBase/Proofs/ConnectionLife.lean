import CppBase.Sanity.ConnectionEffects

/-! The life of a `TcpConnection`: no assertion fails, of the connection, its channel or its
server, as long as nobody touches a connection that has gone down. -/

namespace CppBase.Muduo.TcpConnection

open CppBase.Lib

variable {ι : Type} {s t : TcpConnection ι}

def create (initialSize highWaterMark : ℕ) (hasWriteComplete hasHighWaterMark : Bool) : TcpConnection ι :=
  { highWaterMark, hasWriteComplete, hasHighWaterMark, outputBuffer := Buffer.create initialSize }

def established (initialSize highWaterMark : ℕ) (hasWriteComplete hasHighWaterMark : Bool) : TcpConnection ι :=
  { highWaterMark, hasWriteComplete, hasHighWaterMark, outputBuffer := Buffer.create initialSize
    state := .kConnected, isReading := true }

section Life

/-- The channel waits for events only while the connection is open; the server lets go of it,
and has it destroyed, only when it is down. -/
structure Life (s : TcpConnection ι) : Prop where
  established : s.state ≠ .kConnecting
  up : s.isReading = true ∨ s.isWriting = true → s.isOpen = true
  asked : s.asked = true → s.state = .kDisconnected ∧ s.listed = true
  destroyed : .connectDestroyed ∈ s.pending → s.state = .kDisconnected
  unlisted : s.listed = false → s.state = .kDisconnected

theorem Life.isOpen_eq_false (h : Life s) : s.isOpen = false ↔ s.state = .kDisconnected := by
  have := h.established
  unfold isOpen
  cases hs : s.state <;> simp_all

theorem Life.isOpen_of_ne (h : Life s) (hstate : s.state ≠ .kDisconnected) : s.isOpen = true := by
  rw [← Bool.not_eq_false, h.isOpen_eq_false]
  exact hstate

theorem Life.state_of_open (h : Life s) (hopen : s.isOpen = true) :
    s.asked = false ∧ s.listed = true ∧ .connectDestroyed ∉ s.pending := by
  have hstate : s.state ≠ .kDisconnected := by
    intro hdown
    rw [h.isOpen_eq_false.mpr hdown] at hopen
    cases hopen
  refine ⟨?_, ?_, fun hmem => hstate (h.destroyed hmem)⟩
  · rw [← Bool.not_eq_true]
    exact fun hasked => hstate (h.asked hasked).1
  · rw [← Bool.not_eq_false]
    exact fun hlisted => hstate (h.unlisted hlisted)

/-- Functors that do not destroy the connection make no difference. -/
theorem Life.destroyed_append (h : Life s) {q : List (Functor ι)} (hq : ∀ f ∈ q, f ≠ .connectDestroyed) :
    .connectDestroyed ∈ s.pending ++ q → s.state = .kDisconnected := by
  intro hmem
  obtain hmem | hmem := List.mem_append.mp hmem
  · exact h.destroyed hmem
  · exact absurd rfl (hq _ hmem)

theorem Life.queueInLoop {f : Functor ι} (h : Life s) (hf : f ≠ .connectDestroyed) : Life (s.queueInLoop f) :=
  { h with destroyed := h.destroyed_append (by simpa using hf) }

theorem ne_of_callsBack {f : Functor ι} (h : f.callsBack = true) : f ≠ .connectDestroyed := by
  rintro rfl
  cases h

theorem Life.sent {u : Option ι} {m : List UInt8} (h : Life s) (ht : Sent s u m t) : Life t := by
  cases ht with
  | dropped => exact { h with }
  | written q hq => exact { h with destroyed := h.destroyed_append fun f hf => ne_of_callsBack (hq f hf) }
  | buffered n out q hq hup =>
    exact { h with
      up := fun _ => h.isOpen_of_ne hup
      destroyed := h.destroyed_append fun f hf => ne_of_callsBack (hq f hf) }

theorem Life.flushed (h : Life s) (ht : Flushed s t) : Life t := by
  cases ht with
  | same => exact h
  | part => exact { h with }
  | all out q shut hq hwriting =>
    exact { h with
      up := fun _ => h.up (.inr hwriting)
      destroyed := h.destroyed_append fun f hf => ne_of_callsBack (hq f hf) }

theorem Life.shutdownInLoop (h : Life s) : Life s.shutdownInLoop := by
  unfold TcpConnection.shutdownInLoop
  split
  · exact h
  · exact { h with }

/-- Going down: the channel waits for nothing any more. -/
theorem Life.handleClose (h : Life s) (hopen : s.isOpen = true) : ∃ t, s.handleClose = .ok t ∧ Life t := by
  obtain ⟨-, hlisted, -⟩ := h.state_of_open hopen
  unfold TcpConnection.handleClose
  rw [if_pos hopen]
  refine ⟨_, rfl, nofun, ?_, fun _ => ⟨rfl, hlisted⟩, fun _ => rfl, fun _ => rfl⟩
  rintro (h | h) <;> cases h

theorem Life.quiet (h : Life s) (hdown : s.state = .kDisconnected) : s.isReading = false ∧ s.isWriting = false := by
  rw [← Bool.not_eq_true, ← Bool.not_eq_true, ← not_or]
  intro hup
  have hopen := h.up hup
  rw [h.isOpen_eq_false.mpr hdown] at hopen
  cases hopen

theorem Life.connectDestroyed (h : Life s) (hstate : s.state ≠ .kDisconnecting) :
    ∃ t, s.connectDestroyed = .ok t ∧ Life t ∧ t.state = .kDisconnected ∧ t.asked = s.asked := by
  unfold TcpConnection.connectDestroyed
  by_cases hup : s.state = .kConnected
  · obtain ⟨hasked, -, -⟩ := h.state_of_open (by simp [isOpen, hup])
    rw [if_pos hup]
    refine ⟨_, rfl, ⟨nofun, ?_, ?_, fun _ => rfl, fun _ => rfl⟩, rfl, rfl⟩
    · rintro (h | h) <;> cases h
    · intro h
      rw [show s.asked = true from h] at hasked
      cases hasked
  · have hdown : s.state = .kDisconnected := by
      have := h.established
      cases hs : s.state <;> simp_all
    rw [if_neg hup, if_pos (by simp [h.quiet hdown])]
    exact ⟨s, rfl, h, hdown, rfl⟩

/-- `state_` is set by a thread that found the connection open, and it still is. -/
theorem Life.disconnecting (h : Life s) (hopen : s.isOpen = true) : Life { s with state := .kDisconnecting } := by
  obtain ⟨hasked, hlisted, hpending⟩ := h.state_of_open hopen
  refine ⟨nofun, fun _ => rfl, ?_, fun hmem => absurd hmem hpending, ?_⟩
  · intro h
    rw [show s.asked = true from h] at hasked
    cases hasked
  · intro h
    rw [show s.listed = false from h] at hlisted
    cases hlisted

theorem Life.startReadInLoop (h : Life s) (hopen : s.isOpen = true) : Life s.startReadInLoop := by
  unfold TcpConnection.startReadInLoop
  split
  · exact { h with up := fun _ => hopen }
  · exact h

theorem Life.stopReadInLoop (h : Life s) : Life s.stopReadInLoop := by
  unfold TcpConnection.stopReadInLoop
  split
  · exact { h with up := fun hup => h.up (.inr (hup.resolve_left nofun)) }
  · exact h

end Life

/-- What the system sees to: the poller reports what the channel waits for, the socket takes no
more than it is given, and the server removes a connection that has asked for it. And what
the callers have to: reading is started, and `state_` set by a thread that found the
connection open, only while it still is; and the server goes away neither while a connection
is being shut down nor before it has removed one that is down. -/
def Allowed (s : TcpConnection ι) : Event ι → Prop
  | .connectEstablished => False
  | .send none m w => w.possible s.shut m.length
  | .startRead none => s.isOpen = true
  | .proceed v =>
    s.calls v = .shutdown ∨ s.calls v = .forceClose ∨ s.calls v = .forceCloseWithDelay → s.isOpen = true
  | .handleRead _ | .handleClose => s.isReading = true ∨ s.isWriting = true
  | .handleWrite w => w.possible s.shut s.outputBuffer.readableBytes
  | .runFunctor w => (∀ v m, s.pending.head? = some (.sendInLoop v m) → w.possible s.shut m.length) ∧
      (s.pending.head? = some .startReadInLoop → s.isOpen = true)
  | .removeConnectionInLoop => s.asked = true
  | .serverGone => s.state ≠ .kDisconnecting ∧ s.asked = false
  | .send (some _) _ _ | .startRead (some _) | .shutdown _ | .forceClose _ | .forceCloseWithDelay _
  | .stopRead _ => True

section Steps

theorem Life.runFunctor (h : Life s) {w : Wrote} (ha : Allowed s (.runFunctor w)) :
    ∃ t, s.runFunctor w = .ok t ∧ Life t := by
  obtain ⟨hwrite, hstart⟩ := ha
  unfold TcpConnection.runFunctor
  cases hpending : s.pending with
  | nil => exact ⟨s, rfl, h⟩
  | cons f rest =>
    rw [hpending] at hwrite hstart
    have h' : Life { s with pending := rest } :=
      { h with destroyed := fun hmem => h.destroyed (hpending ▸ List.mem_cons_of_mem f hmem) }
    cases f with
    | sendInLoop v m =>
      obtain ⟨t, ht, hsent⟩ := sendInLoop_sent (s := { s with pending := rest }) (u := some v) (hwrite v m rfl)
      exact ⟨t, ht, h'.sent hsent⟩
    | shutdownInLoop => exact ⟨_, rfl, h'.shutdownInLoop⟩
    | forceCloseInLoop =>
      dsimp only
      unfold forceCloseInLoop
      split
      · rename_i hopen
        exact h'.handleClose hopen
      · exact ⟨_, rfl, h'⟩
    | startReadInLoop => exact ⟨_, rfl, h'.startReadInLoop (hstart rfl)⟩
    | stopReadInLoop => exact ⟨_, rfl, h'.stopReadInLoop⟩
    | connectDestroyed =>
      have hdown : s.state = .kDisconnected := h.destroyed (hpending ▸ List.mem_cons_self)
      obtain ⟨t, ht, hlife, -⟩ := h'.connectDestroyed (by
        dsimp only
        rw [hdown]
        decide)
      exact ⟨t, ht, hlife⟩
    | writeComplete => exact ⟨_, rfl, h'⟩
    | highWaterMark len => exact ⟨_, rfl, h'⟩

theorem Life.removeConnectionInLoop (h : Life s) (hasked : s.asked = true) :
    ∃ t, s.removeConnectionInLoop = .ok t ∧ Life t := by
  obtain ⟨hdown, hlisted⟩ := h.asked hasked
  unfold TcpConnection.removeConnectionInLoop
  rw [if_pos hlisted]
  exact ⟨_, rfl, { h with asked := nofun, destroyed := fun _ => hdown, unlisted := fun _ => hdown }⟩

theorem Life.serverGone (h : Life s) (hstate : s.state ≠ .kDisconnecting) (hasked : s.asked = false) :
    ∃ t, s.serverGone = .ok t ∧ Life t := by
  unfold TcpConnection.serverGone
  split
  · obtain ⟨t, ht, hlife, hdown, hsame⟩ := h.connectDestroyed hstate
    refine ⟨{ t with listed := false }, ?_, { hlife with asked := fun hmem => ?_, unlisted := fun _ => hdown }⟩
    · unfold TcpConnection.connectDestroyed at ht ⊢
      dsimp only at ht ⊢
      split_ifs at ht ⊢ <;> (injection ht with ht; rw [← ht])
    · rw [show t.asked = false from hsame.trans hasked] at hmem
      cases hmem
  · exact ⟨s, rfl, h⟩

variable [DecidableEq ι]

theorem Life.send (h : Life s) {u : Option ι} {m : List UInt8} {w : Wrote} (ha : Allowed s (.send u m w)) :
    ∃ t, s.send u m w = .ok t ∧ Life t := by
  unfold TcpConnection.send
  split
  · cases u with
    | none =>
      have h' : Life { s with sent := s.sent ++ [(none, m)] } := { h with }
      obtain ⟨t, ht, hsent⟩ := sendInLoop_sent (s := { s with sent := s.sent ++ [(none, m)] }) (u := none) ha
      exact ⟨t, ht, h'.sent hsent⟩
    | some v => exact ⟨_, rfl, { h with }⟩
  · exact ⟨s, rfl, h⟩

theorem Life.shutdown (h : Life s) (u : Option ι) : Life (s.shutdown u) := by
  unfold TcpConnection.shutdown
  split
  · rename_i hup
    cases u with
    | none => exact (h.disconnecting (by simp [isOpen, hup])).shutdownInLoop
    | some v => exact { h with }
  · exact h

theorem Life.forceClose (h : Life s) (u : Option ι) : Life (s.forceClose u) := by
  unfold TcpConnection.forceClose
  split
  · rename_i hopen
    cases u with
    | none => exact (h.disconnecting hopen).queueInLoop nofun
    | some v => exact { h with }
  · exact h

theorem Life.forceCloseWithDelay (h : Life s) (u : Option ι) : Life (s.forceCloseWithDelay u) := by
  unfold TcpConnection.forceCloseWithDelay
  split
  · rename_i hopen
    cases u with
    | none => exact h.disconnecting hopen
    | some v => exact { h with }
  · exact h

theorem Life.proceed (h : Life s) {v : ι} (ha : Allowed s (.proceed v)) : Life (s.proceed v) := by
  have hidle : Life (s.setCall v .idle) := { h with }
  have hset : ∀ c, s.isOpen = true → Life { s.setCall v c with state := .kDisconnecting } := fun c hopen =>
    Life.disconnecting (s := s.setCall v c) { h with } hopen
  unfold TcpConnection.proceed
  cases hcall : s.calls v with
  | idle => exact h
  | send m => exact hidle.queueInLoop nofun
  | startRead => exact hidle.queueInLoop nofun
  | stopRead => exact hidle.queueInLoop nofun
  | shutdown => exact hset _ (ha (.inl hcall))
  | shutdownSet => exact hidle.queueInLoop nofun
  | forceClose => exact hset _ (ha (.inr (.inl hcall)))
  | forceCloseSet => exact hidle.queueInLoop nofun
  | forceCloseWithDelay => exact hset _ (ha (.inr (.inr hcall)))

theorem Life.step (h : Life s) (e : Event ι) (ha : Allowed s e) : ∃ t, s.step e = .ok t ∧ Life t := by
  cases e with
  | connectEstablished => exact ha.elim
  | send u m w => exact h.send ha
  | shutdown u => exact ⟨_, rfl, h.shutdown u⟩
  | forceClose u => exact ⟨_, rfl, h.forceClose u⟩
  | forceCloseWithDelay u => exact ⟨_, rfl, h.forceCloseWithDelay u⟩
  | startRead u =>
    cases u with
    | none => exact ⟨_, rfl, h.startReadInLoop ha⟩
    | some v => exact ⟨_, rfl, { h with }⟩
  | stopRead u =>
    cases u with
    | none => exact ⟨_, rfl, h.stopReadInLoop⟩
    | some v => exact ⟨_, rfl, { h with }⟩
  | proceed v => exact ⟨_, rfl, h.proceed ha⟩
  | handleRead r =>
    cases r with
    | eof => exact h.handleClose (h.up ha)
    | bytes => exact ⟨s, rfl, h⟩
    | failed => exact ⟨s, rfl, h⟩
  | handleWrite w =>
    obtain ⟨t, ht, hflushed⟩ := handleWrite_flushed ha
    exact ⟨t, ht, h.flushed hflushed⟩
  | handleClose => exact h.handleClose (h.up ha)
  | runFunctor w => exact h.runFunctor ha
  | removeConnectionInLoop => exact h.removeConnectionInLoop ha
  | serverGone => exact h.serverGone ha.1 ha.2

end Steps

/-- Reading that is started too late is still on when the connection is destroyed. -/
example :
    runAll step (create 0 1 false false : TcpConnection Unit)
      [.connectEstablished, .startRead (some ()), .proceed (), .handleRead .eof, .runFunctor .broken,
        .removeConnectionInLoop, .runFunctor .broken] = .error .assertion := rfl

/-- A thread that found the connection open closes it once more: the server removes it twice. -/
example :
    runAll step (create 0 1 false false : TcpConnection Unit)
      [.connectEstablished, .forceClose (some ()), .handleRead .eof, .removeConnectionInLoop, .proceed (),
        .proceed (), .runFunctor .broken, .runFunctor .broken, .removeConnectionInLoop] = .error .assertion := rfl

/-- A connection that is being shut down when its server goes away still reads. -/
example :
    runAll step (create 0 1 false false : TcpConnection Unit)
      [.connectEstablished, .shutdown none, .serverGone] = .error .assertion := rfl

end CppBase.Muduo.TcpConnection
