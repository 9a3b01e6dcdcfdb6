import CppBase.Proofs.ConnectionLife

/-! What becomes of the messages of a `TcpConnection`, over every order of calls, events and
functors that goes through. Threads may set `state_` at any time, also when the connection has
gone down, so nothing here is said in terms of it. -/

namespace CppBase.Muduo.TcpConnection

open CppBase.Lib

variable {ι : Type} {s t u : TcpConnection ι}

/-- The connection has gone down: it was closed, or its server has let go of it. -/
def gone (s : TcpConnection ι) : Bool := s.asked || !s.listed

section Freeze

/-- A connection that has gone down stays so; and once the socket is shut, nothing more gets on
the wire, while messages that come to `sendInLoop` before it goes down are let go. -/
structure After (s t : TcpConnection ι) : Prop where
  gone : s.gone = true → t.gone = true
  shut : s.shut = true → t.shut = true ∧ t.wire = s.wire
  lost : s.shut = true → t.gone = false →
    ∃ new, t.processed = s.processed ++ new ∧ ∀ p ∈ new, p.dropped = true ∨ p.message = []

theorem After.of_same (hgone : s.gone = true → t.gone = true) (hshut : s.shut = true → t.shut = true)
    (hwire : t.wire = s.wire) (hprocessed : t.processed = s.processed) : After s t :=
  ⟨hgone, fun h => ⟨hshut h, hwire⟩, fun _ _ => ⟨[], by rw [hprocessed, List.append_nil], nofun⟩⟩

theorem After.refl (s : TcpConnection ι) : After s s := .of_same id id rfl rfl

theorem After.trans (h : After s t) (h' : After t u) : After s u := by
  refine ⟨fun hs => h'.gone (h.gone hs), fun hs => ?_, fun hs hu => ?_⟩
  · obtain ⟨ht, hwire⟩ := h.shut hs
    obtain ⟨hu, hwire'⟩ := h'.shut ht
    exact ⟨hu, hwire'.trans hwire⟩
  · have ht : t.gone = false := by
      rw [← Bool.not_eq_true]
      intro ht
      rw [h'.gone ht] at hu
      cases hu
    obtain ⟨new, hnew, hlost⟩ := h.lost hs ht
    obtain ⟨new', hnew', hlost'⟩ := h'.lost (h.shut hs).1 hu
    refine ⟨new ++ new', by rw [hnew', hnew, List.append_assoc], fun p hp => ?_⟩
    exact (List.mem_append.mp hp).elim (hlost p) (hlost' p)

end Freeze

variable [DecidableEq ι] {hand : List (Option ι × List UInt8)}

section Stream

def Functor.carried (v : ι) : Functor ι → Option (List UInt8)
  | .sendInLoop v' m => if v' = v then some m else none
  | _ => none

def Call.carried : Call → List (List UInt8)
  | .send m => [m]
  | _ => []

/-- The messages of a thread on their way to `sendInLoop`. -/
def waiting (s : TcpConnection ι) : Option ι → List (List UInt8)
  | none => []
  | some v => s.pending.filterMap (Functor.carried v) ++ (s.calls v).carried

/-- The bytes on the wire and in the buffer are those of the messages that were not dropped; the
messages of every thread are processed in their order; and until the connection goes down the
channel waits to write when there is something in the buffer, and the socket is shut only when
there is not. A message in the hands of the loop is yet to be processed. -/
structure Stream (hand : List (Option ι × List UInt8)) (s : TcpConnection ι) : Prop where
  bytes : s.wire ++ s.outputBuffer.contents = (s.processed.filter (!·.dropped)).flatMap (·.message)
  order : ∀ u, (s.processed.filter (·.sender = u)).map (·.message) ++ (hand.filter (·.1 = u)).map (·.2) ++
    s.waiting u = (s.sent.filter (·.1 = u)).map (·.2)
  writing : s.gone = false → (s.isWriting = true ↔ s.outputBuffer.contents ≠ [])
  shut : s.gone = false → s.shut = true → s.outputBuffer.contents = []
  removed : .connectDestroyed ∈ s.pending → s.listed = false

theorem waiting_append {q : List (Functor ι)} (hq : ∀ f ∈ q, ∀ v, f.carried v = none)
    (hpending : t.pending = s.pending ++ q) (hcalls : t.calls = s.calls) (u : Option ι) :
    t.waiting u = s.waiting u := by
  cases u with
  | none => rfl
  | some v =>
    have hnone : q.filterMap (Functor.carried v) = [] := List.filterMap_eq_nil_iff.mpr fun f hf => hq f hf v
    rw [waiting, waiting, hpending, hcalls, List.filterMap_append, hnone, List.append_nil]

theorem carried_of_callsBack {f : Functor ι} (h : f.callsBack = true) (v : ι) : f.carried v = none := by
  cases f <;> first | rfl | cases h

omit [DecidableEq ι] in
theorem mem_of_callsBack {q : List (Functor ι)} (hq : ∀ f ∈ q, f.callsBack = true)
    (h : .connectDestroyed ∈ s.pending ++ q) : .connectDestroyed ∈ s.pending :=
  (List.mem_append.mp h).resolve_right fun hmem => nomatch hq _ hmem

theorem Stream.queueInLoop {f : Functor ι} (h : Stream hand s) (hf : ∀ v, f.carried v = none)
    (hne : f ≠ .connectDestroyed) : Stream hand (s.queueInLoop f) :=
  { h with
    order := fun u => by
      rw [waiting_append (t := s.queueInLoop f) (q := [f]) (by simpa using hf) rfl rfl]
      exact h.order u
    removed := fun hmem => by
      rw [TcpConnection.queueInLoop, List.mem_append, List.mem_singleton] at hmem
      exact h.removed (hmem.resolve_right fun heq => hne heq.symm) }

/-- The order, once the message in hand is processed. -/
theorem Stream.order_process {u : Option ι} {m : List UInt8} {dropped : Bool} (h : Stream [(u, m)] s)
    (hprocessed : t.processed = s.processed ++ [⟨u, m, dropped⟩]) (hsent : t.sent = s.sent)
    (hwaiting : ∀ u, t.waiting u = s.waiting u) (v : Option ι) :
    (t.processed.filter (·.sender = v)).map (·.message) ++ [] ++ t.waiting v =
      (t.sent.filter (·.1 = v)).map (·.2) := by
  rw [hprocessed, hsent, hwaiting, ← h.order v, List.filter_append, List.map_append]
  by_cases hu : u = v <;> simp [hu]

theorem Stream.sent {u : Option ι} {m : List UInt8} (h : Stream [(u, m)] s) (ht : Sent s u m t) :
    Stream [] t ∧ After s t := by
  cases ht with
  | dropped =>
    refine ⟨{ h with bytes := ?_, order := h.order_process rfl rfl fun _ => rfl },
      id, fun hs => ⟨hs, rfl⟩, fun _ _ => ?_⟩
    · simpa using h.bytes
    · exact ⟨_, rfl, by simp⟩
  | written q hq hfirst hshut =>
    have hwaiting := waiting_append (s := s) (t := { s with
      wire := s.wire ++ m, processed := s.processed ++ [⟨u, m, false⟩], pending := s.pending ++ q })
      (fun f hf => carried_of_callsBack (hq f hf)) rfl rfl
    refine ⟨{ h with
      bytes := ?_
      order := h.order_process rfl rfl hwaiting
      removed := fun hmem => h.removed (mem_of_callsBack hq hmem) }, id, fun hs => ⟨hs, ?_⟩, fun hs _ => ⟨_, rfl, ?_⟩⟩
    · have hbytes := h.bytes
      obtain hnil | rfl := hfirst
      · simp only [hnil, List.append_nil] at hbytes ⊢
        simp [hbytes]
      · simpa using hbytes
    · simp [hshut hs]
    · simp [hshut hs]
  | buffered n out q hq hup hlt hfirst hout hshut =>
    have hwaiting := waiting_append (s := s) (t := { s with
      wire := s.wire ++ m.take n, processed := s.processed ++ [⟨u, m, false⟩], outputBuffer := out,
      isWriting := true, pending := s.pending ++ q })
      (fun f hf => carried_of_callsBack (hq f hf)) rfl rfl
    have hne : out.contents ≠ [] := by
      rw [hout]
      intro hnil
      exact absurd (List.drop_eq_nil_iff.mp (List.append_eq_nil_iff.mp hnil).2) (Nat.not_le_of_lt hlt)
    -- a socket that is shut has an empty buffer, and would have been tried
    have hopen : s.gone = false → s.shut = false := by
      intro hgone
      rw [← Bool.not_eq_true]
      intro hs
      have hnil := h.shut hgone hs
      obtain hwriting | hcontents := (hshut hs).2
      · exact (h.writing hgone).mp hwriting hnil
      · exact hcontents hnil
    refine ⟨⟨?_, h.order_process rfl rfl hwaiting, fun _ => by simpa using hne, fun hgone hs => ?_,
      fun hmem => h.removed (mem_of_callsBack hq hmem)⟩, id, fun hs => ⟨hs, ?_⟩, fun hs hgone => ?_⟩
    · have hbytes := h.bytes
      obtain hnil | rfl := hfirst
      · simp only [hout, hnil, List.append_nil, List.nil_append] at hbytes ⊢
        simp [hbytes]
      · simp only [hout, List.take_zero, List.append_nil, List.drop_zero]
        rw [← List.append_assoc, hbytes]
        simp
    · rw [show s.shut = true from hs] at hopen
      cases hopen hgone
    · simp [(hshut hs).1]
    · rw [hs] at hopen
      cases hopen hgone

theorem Stream.flushed (h : Stream [] s) (ht : Flushed s t) : Stream [] t ∧ After s t := by
  cases ht with
  | same => exact ⟨h, .refl s⟩
  | part n out hwriting hshut hout hne =>
    have hopen : ¬ s.shut = true := by simp [hshut]
    refine ⟨{ h with bytes := ?_, writing := fun _ => ?_, shut := fun _ hs => absurd hs hopen },
      id, fun hs => absurd hs hopen, fun hs => absurd hs hopen⟩
    · dsimp only
      rw [hout, List.append_assoc, List.take_append_drop, h.bytes]
    · simp [hwriting, hne]
  | all out q shut hq hwriting hshut hout =>
    have hopen : ¬ s.shut = true := by simp [hshut]
    have hwaiting := waiting_append (s := s) (t := { s with
      wire := s.wire ++ s.outputBuffer.contents, outputBuffer := out, isWriting := false,
      pending := s.pending ++ q, shut := shut })
      (fun f hf => carried_of_callsBack (hq f hf)) rfl rfl
    refine ⟨⟨?_, fun u => ?_, fun _ => by simp [hout], fun _ _ => hout,
      fun hmem => h.removed (mem_of_callsBack hq hmem)⟩, id, fun hs => absurd hs hopen, fun hs => absurd hs hopen⟩
    · dsimp only
      rw [hout, List.append_nil, h.bytes]
    · rw [hwaiting]
      exact h.order u

end Stream

section Calls

theorem Stream.shutdownInLoop (h : Stream [] s) : Stream [] s.shutdownInLoop ∧ After s s.shutdownInLoop := by
  unfold TcpConnection.shutdownInLoop
  split
  · exact ⟨h, .refl s⟩
  · rename_i hwriting
    refine ⟨{ h with shut := fun hgone _ => ?_ }, .of_same id (fun _ => rfl) rfl rfl⟩
    by_contra hne
    exact hwriting ((h.writing hgone).mpr hne)

/-- A connection that goes down has nothing left to keep but its bytes. -/
theorem Stream.handleClose (h : Stream [] s) (ht : s.handleClose = .ok t) : Stream [] t ∧ After s t := by
  unfold TcpConnection.handleClose at ht
  split at ht
  · obtain rfl := Except.ok.inj ht
    exact ⟨{ h with writing := nofun, shut := nofun }, .of_same (fun _ => rfl) id rfl rfl⟩
  · cases ht

theorem Stream.connectDestroyed (h : Stream [] s) (hlisted : s.listed = false) (ht : s.connectDestroyed = .ok t) :
    Stream [] t ∧ After s t := by
  have hgone : s.gone = true := by simp [gone, hlisted]
  have hdown : ∀ t : TcpConnection ι, t.gone = true → t.gone ≠ false := fun t h => by simp [h]
  unfold TcpConnection.connectDestroyed at ht
  dsimp only at ht
  split at ht
  · split at ht
    · obtain rfl := Except.ok.inj ht
      refine ⟨{ h with writing := fun h => absurd h (hdown _ hgone), shut := fun h => absurd h (hdown _ hgone) }, ?_⟩
      exact .of_same id id rfl rfl
    · cases ht
  · split at ht
    · obtain rfl := Except.ok.inj ht
      exact ⟨h, .refl s⟩
    · cases ht

theorem Stream.setCall {v : ι} {c : Call} (h : Stream hand s) (hv : (s.calls v).carried = []) (hc : c.carried = []) :
    Stream hand (s.setCall v c) := by
  refine { h with order := fun u => ?_ }
  have hwaiting : (s.setCall v c).waiting u = s.waiting u := by
    cases u with
    | none => rfl
    | some v' =>
      by_cases hvv : v' = v
      · subst hvv
        simp [waiting, TcpConnection.setCall, hv, hc]
      · simp [waiting, TcpConnection.setCall, hvv]
  rw [hwaiting]
  exact h.order u

omit [DecidableEq ι] in
theorem idle_carried {v : ι} (h : s.calls v = .idle) : (s.calls v).carried = [] := by
  rw [h]
  rfl

/-- A message that is let in is in the hands of the loop, or on its way there. -/
theorem stream_let_in (h : Stream [] s) (m : List UInt8) :
    Stream [(none, m)] { s with sent := s.sent ++ [(none, m)] } := by
  refine { h with order := fun u => ?_ }
  have horder : _ = (s.sent.filter (·.1 = u)).map (·.2) := h.order u
  rw [List.filter_append, List.map_append, ← horder]
  cases u <;> simp [waiting]

theorem stream_let_in_thread {v : ι} (h : Stream [] s) (hidle : s.calls v = .idle) (m : List UInt8) :
    Stream [] (setCall { s with sent := s.sent ++ [(some v, m)] } v (.send m)) := by
  refine { h with order := fun u => ?_ }
  have horder : _ = (s.sent.filter (·.1 = u)).map (·.2) := h.order u
  rw [show (setCall { s with sent := s.sent ++ [(some v, m)] } v (.send m)).sent = s.sent ++ [(some v, m)] from rfl,
    List.filter_append, List.map_append, ← horder]
  cases u with
  | none => simp [waiting, setCall]
  | some v' =>
    by_cases hv : v' = v
    · subst hv
      simp [waiting, setCall, Call.carried, hidle]
    · simp [waiting, setCall, hv, Ne.symm hv]

/-- A thread that is done with its call has queued its functor. -/
theorem stream_queued {v : ι} {m : List UInt8} (h : Stream [] s) (hcall : s.calls v = .send m) :
    Stream [] ((s.setCall v .idle).queueInLoop (.sendInLoop v m)) := by
  refine { h with order := fun u => ?_, removed := fun hmem => h.removed ?_ }
  · have horder : _ = (s.sent.filter (·.1 = u)).map (·.2) := h.order u
    rw [show ((s.setCall v .idle).queueInLoop (.sendInLoop v m)).sent = s.sent from rfl, ← horder]
    cases u with
    | none => rfl
    | some v' =>
      by_cases hv : v' = v
      · subst hv
        simp [waiting, setCall, queueInLoop, Functor.carried, Call.carried, hcall]
      · simp [waiting, setCall, queueInLoop, Functor.carried, hv, Ne.symm hv]
  · simpa [queueInLoop, setCall] using hmem

end Calls

/-- What the system sees to: a thread makes one call at a time, and the socket takes no more than
it is given. -/
def Sane (s : TcpConnection ι) : Event ι → Prop
  | .send none m w => w.possible s.shut m.length
  | .send (some v) _ _ | .shutdown (some v) | .forceClose (some v) | .forceCloseWithDelay (some v)
  | .startRead (some v) | .stopRead (some v) => s.calls v = .idle
  | .handleWrite w => w.possible s.shut s.outputBuffer.readableBytes
  | .runFunctor w => ∀ v m, s.pending.head? = some (.sendInLoop v m) → w.possible s.shut m.length
  | _ => True

section Steps

theorem Stream.send (h : Stream [] s) {u : Option ι} {m : List UInt8} {w : Wrote} (ha : Sane s (.send u m w))
    (ht : s.send u m w = .ok t) : Stream [] t ∧ After s t := by
  unfold TcpConnection.send at ht
  split at ht
  · cases u with
    | none =>
      obtain ⟨t', ht', hsent⟩ := sendInLoop_sent (s := { s with sent := s.sent ++ [(none, m)] }) (u := none) ha
      obtain rfl : t' = t := Except.ok.inj (ht'.symm.trans ht)
      obtain ⟨h', hafter⟩ := (stream_let_in h m).sent hsent
      exact ⟨h', hafter.gone, hafter.shut, hafter.lost⟩
    | some v =>
      obtain rfl := Except.ok.inj ht
      exact ⟨stream_let_in_thread h ha m, .of_same id id rfl rfl⟩
  · obtain rfl := Except.ok.inj ht
    exact ⟨h, .refl s⟩

theorem Stream.shutdown (h : Stream [] s) {u : Option ι} (ha : Sane s (.shutdown u)) :
    Stream [] (s.shutdown u) ∧ After s (s.shutdown u) := by
  unfold TcpConnection.shutdown
  split
  · cases u with
    | none =>
      have h' : Stream [] { s with state := .kDisconnecting } := { h with }
      obtain ⟨h'', hafter⟩ := h'.shutdownInLoop
      exact ⟨h'', hafter.gone, hafter.shut, hafter.lost⟩
    | some v => exact ⟨h.setCall (idle_carried ha) rfl, .of_same id id rfl rfl⟩
  · exact ⟨h, .refl s⟩

theorem Stream.forceClose (h : Stream [] s) {u : Option ι} (ha : Sane s (.forceClose u)) :
    Stream [] (s.forceClose u) ∧ After s (s.forceClose u) := by
  unfold TcpConnection.forceClose
  split
  · cases u with
    | none =>
      have h' : Stream [] { s with state := .kDisconnecting } := { h with }
      exact ⟨h'.queueInLoop (fun _ => rfl) nofun, .of_same id id rfl rfl⟩
    | some v => exact ⟨h.setCall (idle_carried ha) rfl, .of_same id id rfl rfl⟩
  · exact ⟨h, .refl s⟩

theorem Stream.forceCloseWithDelay (h : Stream [] s) {u : Option ι} (ha : Sane s (.forceCloseWithDelay u)) :
    Stream [] (s.forceCloseWithDelay u) ∧ After s (s.forceCloseWithDelay u) := by
  unfold TcpConnection.forceCloseWithDelay
  split
  · cases u with
    | none => exact ⟨{ h with }, .of_same id id rfl rfl⟩
    | some v => exact ⟨h.setCall (idle_carried ha) rfl, .of_same id id rfl rfl⟩
  · exact ⟨h, .refl s⟩

theorem Stream.startReadInLoop (h : Stream [] s) : Stream [] s.startReadInLoop ∧ After s s.startReadInLoop := by
  unfold TcpConnection.startReadInLoop
  split
  · exact ⟨{ h with }, .of_same id id rfl rfl⟩
  · exact ⟨h, .refl s⟩

theorem Stream.stopReadInLoop (h : Stream [] s) : Stream [] s.stopReadInLoop ∧ After s s.stopReadInLoop := by
  unfold TcpConnection.stopReadInLoop
  split
  · exact ⟨{ h with }, .of_same id id rfl rfl⟩
  · exact ⟨h, .refl s⟩

theorem Stream.proceed (h : Stream [] s) (v : ι) : Stream [] (s.proceed v) ∧ After s (s.proceed v) := by
  have hqueue : ∀ f : Functor ι, f ≠ .connectDestroyed → (∀ v, f.carried v = none) → (s.calls v).carried = [] →
      Stream [] ((s.setCall v .idle).queueInLoop f) ∧ After s ((s.setCall v .idle).queueInLoop f) :=
    fun f hf hcarried hcall => ⟨(h.setCall hcall rfl).queueInLoop hcarried hf, .of_same id id rfl rfl⟩
  have hset : ∀ c : Call, c.carried = [] → (s.calls v).carried = [] →
      Stream [] { s.setCall v c with state := .kDisconnecting } ∧
        After s { s.setCall v c with state := .kDisconnecting } := fun c hc hcall =>
    ⟨{ h.setCall hcall hc with }, .of_same id id rfl rfl⟩
  unfold TcpConnection.proceed
  cases hcall : s.calls v with
  | idle => exact ⟨h, .refl s⟩
  | send m => exact ⟨stream_queued h hcall, .of_same id id rfl rfl⟩
  | startRead => exact hqueue _ nofun (fun _ => rfl) (by rw [hcall]; rfl)
  | stopRead => exact hqueue _ nofun (fun _ => rfl) (by rw [hcall]; rfl)
  | shutdown => exact hset _ rfl (by rw [hcall]; rfl)
  | shutdownSet => exact hqueue _ nofun (fun _ => rfl) (by rw [hcall]; rfl)
  | forceClose => exact hset _ rfl (by rw [hcall]; rfl)
  | forceCloseSet => exact hqueue _ nofun (fun _ => rfl) (by rw [hcall]; rfl)
  | forceCloseWithDelay => exact hset _ rfl (by rw [hcall]; rfl)

/-- A functor is taken off the queue: what it carries is in the hands of the loop. -/
theorem Stream.taken (h : Stream [] s) {f : Functor ι} {rest : List (Functor ι)} (hpending : s.pending = f :: rest)
    (hf : ∀ v, f.carried v = none) : Stream [] { s with pending := rest } := by
  refine { h with order := fun u => ?_, removed := fun hmem => h.removed (hpending ▸ List.mem_cons_of_mem f hmem) }
  have horder := h.order u
  cases u with
  | none => exact horder
  | some v =>
    rw [waiting, hpending, List.filterMap_cons_none (hf v)] at horder
    exact horder

theorem Stream.taken_sendInLoop (h : Stream [] s) {v : ι} {m : List UInt8} {rest : List (Functor ι)}
    (hpending : s.pending = .sendInLoop v m :: rest) : Stream [(some v, m)] { s with pending := rest } := by
  refine { h with order := fun u => ?_, removed := fun hmem => h.removed (hpending ▸ List.mem_cons_of_mem _ hmem) }
  have horder : _ = (s.sent.filter (·.1 = u)).map (·.2) := h.order u
  refine Eq.trans ?_ horder
  cases u with
  | none => simp [waiting]
  | some v' => by_cases hv : v = v' <;> simp [waiting, hpending, Functor.carried, hv]

theorem Stream.runFunctor (h : Stream [] s) {w : Wrote} (ha : Sane s (.runFunctor w)) (ht : s.runFunctor w = .ok t) :
    Stream [] t ∧ After s t := by
  unfold TcpConnection.runFunctor at ht
  cases hpending : s.pending with
  | nil =>
    rw [hpending] at ht
    obtain rfl := Except.ok.inj ht
    exact ⟨h, .refl s⟩
  | cons f rest =>
    rw [hpending] at ht
    have h' := h.taken hpending
    have hafter : ∀ {t}, After { s with pending := rest } t → After s t := fun ha => ⟨ha.gone, ha.shut, ha.lost⟩
    cases f with
    | sendInLoop v m =>
      have hw : w.possible s.shut m.length := ha v m (by rw [hpending]; rfl)
      obtain ⟨t', ht', hsent⟩ := sendInLoop_sent (s := { s with pending := rest }) (u := some v) hw
      obtain rfl : t' = t := Except.ok.inj (ht'.symm.trans ht)
      obtain ⟨hs, ha⟩ := (h.taken_sendInLoop hpending).sent hsent
      exact ⟨hs, hafter ha⟩
    | shutdownInLoop =>
      obtain rfl := Except.ok.inj ht
      obtain ⟨hs, ha⟩ := (h' fun _ => rfl).shutdownInLoop
      exact ⟨hs, hafter ha⟩
    | forceCloseInLoop =>
      dsimp only at ht
      unfold forceCloseInLoop at ht
      split at ht
      · obtain ⟨hs, ha⟩ := (h' fun _ => rfl).handleClose ht
        exact ⟨hs, hafter ha⟩
      · obtain rfl := Except.ok.inj ht
        exact ⟨h' fun _ => rfl, hafter (.refl _)⟩
    | startReadInLoop =>
      obtain rfl := Except.ok.inj ht
      obtain ⟨hs, ha⟩ := (h' fun _ => rfl).startReadInLoop
      exact ⟨hs, hafter ha⟩
    | stopReadInLoop =>
      obtain rfl := Except.ok.inj ht
      obtain ⟨hs, ha⟩ := (h' fun _ => rfl).stopReadInLoop
      exact ⟨hs, hafter ha⟩
    | connectDestroyed =>
      have hlisted : s.listed = false := h.removed (hpending ▸ List.mem_cons_self)
      obtain ⟨hs, ha⟩ := (h' fun _ => rfl).connectDestroyed hlisted ht
      exact ⟨hs, hafter ha⟩
    | writeComplete =>
      obtain rfl := Except.ok.inj ht
      exact ⟨h' fun _ => rfl, hafter (.refl _)⟩
    | highWaterMark len =>
      obtain rfl := Except.ok.inj ht
      exact ⟨h' fun _ => rfl, hafter (.refl _)⟩

theorem Stream.removeConnectionInLoop (h : Stream [] s) (ht : s.removeConnectionInLoop = .ok t) :
    Stream [] t ∧ After s t := by
  unfold TcpConnection.removeConnectionInLoop at ht
  split at ht
  · obtain rfl := Except.ok.inj ht
    refine ⟨{ h with order := fun u => ?_, writing := nofun, shut := nofun, removed := fun _ => rfl },
      .of_same (fun _ => rfl) id rfl rfl⟩
    have hwaiting := waiting_append (s := s)
      (t := { s with listed := false, asked := false }.queueInLoop .connectDestroyed) (q := [.connectDestroyed])
      (by simp [Functor.carried]) rfl rfl u
    rw [hwaiting]
    exact h.order u
  · cases ht

theorem Stream.serverGone (h : Stream [] s) (ht : s.serverGone = .ok t) : Stream [] t ∧ After s t := by
  unfold TcpConnection.serverGone at ht
  split at ht
  · have hgone : gone { s with listed := false } = true := by simp [gone]
    have h' : Stream [] { s with listed := false } :=
      { h with
        writing := fun hup => by rw [hgone] at hup; cases hup
        shut := fun hup => by rw [hgone] at hup; cases hup
        removed := fun _ => rfl }
    obtain ⟨hs, ha⟩ := h'.connectDestroyed rfl ht
    exact ⟨hs, fun _ => ha.gone hgone, ha.shut, ha.lost⟩
  · obtain rfl := Except.ok.inj ht
    exact ⟨h, .refl s⟩

theorem Stream.step (h : Stream [] s) {e : Event ι} (ha : Sane s e) (ht : s.step e = .ok t) :
    Stream [] t ∧ After s t := by
  cases e with
  | connectEstablished =>
    change s.connectEstablished = .ok t at ht
    unfold TcpConnection.connectEstablished at ht
    split at ht
    · obtain rfl := Except.ok.inj ht
      exact ⟨{ h with }, .of_same id id rfl rfl⟩
    · cases ht
  | send u m w => exact h.send ha ht
  | shutdown u =>
    obtain rfl := Except.ok.inj ht
    exact h.shutdown ha
  | forceClose u =>
    obtain rfl := Except.ok.inj ht
    exact h.forceClose ha
  | forceCloseWithDelay u =>
    obtain rfl := Except.ok.inj ht
    exact h.forceCloseWithDelay ha
  | startRead u =>
    obtain rfl := Except.ok.inj ht
    cases u with
    | none => exact h.startReadInLoop
    | some v => exact ⟨h.setCall (idle_carried ha) rfl, .of_same id id rfl rfl⟩
  | stopRead u =>
    obtain rfl := Except.ok.inj ht
    cases u with
    | none => exact h.stopReadInLoop
    | some v => exact ⟨h.setCall (idle_carried ha) rfl, .of_same id id rfl rfl⟩
  | proceed v =>
    obtain rfl := Except.ok.inj ht
    exact h.proceed v
  | handleRead r =>
    cases r with
    | eof => exact h.handleClose ht
    | bytes | failed =>
      obtain rfl := Except.ok.inj ht
      exact ⟨h, .refl s⟩
  | handleWrite w =>
    obtain ⟨t', ht', hflushed⟩ := handleWrite_flushed ha
    obtain rfl : t' = t := Except.ok.inj (ht'.symm.trans ht)
    exact h.flushed hflushed
  | handleClose => exact h.handleClose ht
  | runFunctor w => exact h.runFunctor ha ht
  | removeConnectionInLoop => exact h.removeConnectionInLoop ht
  | serverGone => exact h.serverGone ht

theorem Stream.run {es : List (Event ι)} (h : Stream [] s) (hes : Along TcpConnection.step Sane s es)
    (ht : runAll TcpConnection.step s es = .ok t) : Stream [] t ∧ After s t := by
  induction es generalizing s with
  | nil =>
    obtain rfl : s = t := by simpa using ht
    exact ⟨h, .refl s⟩
  | cons e es ih =>
    obtain ⟨v, hv, hrest⟩ := runAll_cons_ok ht
    obtain ⟨he, hes⟩ := (along_cons hv).mp hes
    obtain ⟨h', hafter⟩ := h.step he hv
    obtain ⟨h'', hafter'⟩ := ih h' hes hrest
    exact ⟨h'', hafter.trans hafter'⟩

end Steps

end CppBase.Muduo.TcpConnection
