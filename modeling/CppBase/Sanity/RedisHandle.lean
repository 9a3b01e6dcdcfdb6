import CppBase.Sanity.RedisInvariant

/-! Every event of the Redis thread: when it dereferences a null reply, and that
it otherwise goes through and keeps the invariant. -/

namespace CppBase.RedisTool.RedisManager

open CppBase.Lib

variable {s : RedisManager} {c : Context}

def pingTimedOut (s : RedisManager) (now : ℕ) : Bool := s.master.stat = .working && s.master.lastPing + 15 < now

def masterCheckDue (s : RedisManager) (now : ℕ) : Bool :=
  s.master.stat ≠ .working && s.lastTimeOutTimeStamp + 30 < UInt32.ofNat now

/-- The connection is lost at the event, or freed by `close`. -/
def frees (s : RedisManager) : Event → Bool
  | .disconnect _ _ => s.master.context.any Context.connected
  | .timer now _ _ => s.dispatching && (s.masterCheckDue now || s.pingTimedOut now)
  | .checkPing now => s.pingTimedOut now
  | .close _ => true
  | _ => false

/-- The oldest pending command is an `AUTH` or a `PING`. -/
def internalFirst (s : RedisManager) : Bool :=
  match s.master.context with
  | some c => c.pending.head?.any RedisRequest.internal
  | none => false

/-- An `AUTH` or a `PING` goes unanswered: its connection is lost or freed, or its reply is null. -/
def losesInternal (s : RedisManager) : Event → Bool
  | .reply none _ => s.internalFirst
  | e => s.frees e && s.internalPending

/-- A null reply is dereferenced where `bad` holds, and a state with the invariant is reached elsewhere. -/
structure Settles (bad : Bool) (r : Except Fault RedisManager) : Prop where
  error : bad = true → r = .error .nullReply
  ok : bad = false → ∃ t, r = .ok t ∧ t.Inv

theorem Settles.of_ok {bad : Bool} {r : Except Fault RedisManager} (hbad : bad = false)
    (h : ∃ t, r = .ok t ∧ t.Inv) : Settles bad r :=
  ⟨by simp [hbad], fun _ => h⟩

theorem Inv.settles_close (h : s.Inv) (now : ℕ) : Settles s.internalPending (s.close now) := by
  rw [close_eq]
  refine ⟨fun hbad => if_pos hbad, fun hbad => ⟨s.closed, ?_, h.closed⟩⟩
  rw [hbad]
  rfl

theorem Inv.settles_checkPing (h : s.Inv) (now : ℕ) :
    Settles (s.pingTimedOut now && s.internalPending) (s.checkPing now) := by
  unfold RedisManager.checkPing pingTimedOut
  by_cases hw : s.master.stat = .working
  · rw [if_neg (not_not.mpr hw)]
    by_cases hlate : s.master.lastPing + 15 < now
    · simpa only [hw, hlate, if_true, decide_true, Bool.true_and] using h.settles_close now
    · rw [if_neg hlate]
      refine .of_ok (by simp [hlate]) ?_
      split
      · obtain ⟨c, hc, -⟩ := h.working hw
        obtain ⟨t, ht, hinv, -⟩ := h.redisCommandOf hc (h.connected hw hc).1 redisUriPing
        refine ⟨{ t with master := { t.master with lastPingSend := now } }, by rw [ht, ok_bind], ?_⟩
        exact hinv.congr rfl rfl rfl rfl rfl rfl
      · exact ⟨s, rfl, h⟩
  · rw [if_pos hw]
    exact .of_ok (by simp [hw]) ⟨s, rfl, h⟩

theorem checkPing_of_not_working (h : s.master.stat ≠ .working) (now : ℕ) : s.checkPing now = .ok s := by
  rw [RedisManager.checkPing, if_pos h]

/-- The connection a due master check opens after it closed the last. -/
def reopened (s : RedisManager) (now : ℕ) (sentinel : Option RedisAddr) (err : Bool) : RedisManager :=
  let t := closed { s with lastTimeOutTimeStamp := UInt32.ofNat now }
  match sentinel with
  | none => t
  | some addr => ({ t with masterAddr := addr }.connect addr err).2

theorem checkMaster_due (hw : s.master.stat ≠ .working) (now : ℕ)
    (hdue : s.lastTimeOutTimeStamp + 30 < UInt32.ofNat now)
    (sentinel : Option RedisAddr) (err : Bool) : s.checkMaster now sentinel err =
      if s.internalPending then .error .nullReply else .ok (s.reopened now sentinel err) := by
  rw [checkMaster, if_neg hw, if_pos hdue, close_eq]
  by_cases hp : s.internalPending
  · rw [if_pos hp, if_pos (by exact hp), error_bind]
  · rw [if_neg hp, if_neg (by exact hp), ok_bind]
    cases sentinel <;> rfl

theorem Inv.reopened (h : s.Inv) (hd : s.dispatching = true) (now : ℕ) (sentinel : Option RedisAddr) (err : Bool) :
    (s.reopened now sentinel err).Inv ∧ (s.reopened now sentinel err).master.stat ≠ .working := by
  have hclosed : (RedisManager.closed { s with lastTimeOutTimeStamp := UInt32.ofNat now }).Inv :=
    Inv.closed (h.congr rfl rfl rfl rfl rfl rfl)
  have hstat : (RedisManager.closed { s with lastTimeOutTimeStamp := UInt32.ofNat now }).master.stat ≠ .working :=
    nofun
  cases sentinel with
  | none => exact ⟨hclosed, hstat⟩
  | some addr =>
    have haddr := hclosed.congr (t := { RedisManager.closed { s with lastTimeOutTimeStamp := UInt32.ofNat now } with
      masterAddr := addr }) rfl rfl rfl rfl rfl rfl
    have hopen := haddr.connect rfl (noHashes_closed _) addr err (fun _ => rfl)
    refine ⟨hopen.congr rfl rfl rfl rfl rfl ((dispatching_connect _ _ _).trans hd), ?_⟩
    apply stat_connect
    exact hstat

theorem Inv.settles_timer (h : s.Inv) (hd : s.dispatching = true) (now : ℕ) (sentinel : Option RedisAddr)
    (err : Bool) :
    Settles ((s.masterCheckDue now || s.pingTimedOut now) && s.internalPending) (s.timer now sentinel err) := by
  unfold timer
  by_cases hw : s.master.stat = .working
  · rw [checkMaster, if_pos hw, ok_bind]
    simpa [masterCheckDue, hw] using h.settles_checkPing now
  · by_cases hdue : s.lastTimeOutTimeStamp + 30 < UInt32.ofNat now
    · rw [checkMaster_due hw now hdue]
      obtain ⟨hinv, hstat⟩ := h.reopened hd now sentinel err
      simp only [masterCheckDue, hw, hdue, ne_eq, not_false_eq_true, decide_true, Bool.and_self, Bool.true_or,
        Bool.true_and]
      refine ⟨fun hp => by rw [if_pos hp, error_bind], fun hp => ⟨_, ?_, hinv⟩⟩
      rw [hp, if_neg Bool.false_ne_true, ok_bind, checkPing_of_not_working hstat]
    · refine .of_ok (by simp [masterCheckDue, pingTimedOut, hw, hdue]) ⟨s, ?_, h⟩
      rw [checkMaster, if_neg hw, if_neg hdue, ok_bind, checkPing_of_not_working hw]

/-- A connection that comes up sends `AUTH`; one that does not has nothing pending. -/
theorem Inv.redisConnect (h : s.Inv) (hc : s.master.context = some c) (hconn : c.connected = false) (ok : Bool)
    (now : ℕ) (nowMs : UInt64) : ∃ t, s.redisConnect c ok now nowMs = .ok t ∧ t.Inv := by
  cases ok with
  | true =>
    refine ⟨_, rfl, Inv.of_besidesQueue ?_ (besidesQueue_load _ nowMs)⟩
    exact h.commanded hc rfl rfl rfl (Or.inr rfl) (Or.inl rfl) (Or.inl rfl) rfl rfl (fun e he => Or.inl he) rfl
  | false =>
    have hpend := (h.unconnected c hc hconn).1
    refine ⟨{ s.redisDisconnect with callbacks := s.callbacks ++ c.nulls }, ?_, ?_⟩
    · simp [RedisManager.redisConnect, redisAsyncFree_eq, hpend, hconn, redisDisconnect]
    · exact h.disconnected rfl rfl (List.subset_append_left _ _) (Or.inl rfl) rfl rfl

theorem Inv.settles_reply (h : s.Inv) (reply : Option RedisReply) (now : ℕ) :
    Settles (s.losesInternal (.reply reply now)) (s.handle (.reply reply now)) := by
  cases hc : s.master.context with
  | none =>
    refine .of_ok ?_ ⟨s, by simp only [handle, hc], h⟩
    cases reply <;> simp [losesInternal, internalFirst, frees, hc]
  | some c =>
    cases hpend : c.pending with
    | nil =>
      refine .of_ok ?_ ⟨s, by simp only [handle, hc, hpend], h⟩
      cases reply <;> simp [losesInternal, internalFirst, frees, hc, hpend]
    | cons request rest =>
      have hhandle : s.handle (.reply reply now) = redisCommandCallback now c reply
          { s with master := { s.master with context := some { c with pending := rest } } } request := by
        simp only [handle, hc, hpend]
      rw [hhandle]
      cases reply with
      | some reply =>
        obtain ⟨t, ht, heff⟩ := callback_some now c
          { s with master := { s.master with context := some { c with pending := rest } } } request reply
        exact .of_ok rfl ⟨t, ht, h.replied hc hpend heff⟩
      | none =>
        have hbad : s.losesInternal (.reply none now) = request.internal := by
          simp [losesInternal, internalFirst, hc, hpend]
        rw [hbad, callback_null]
        refine ⟨fun hi => if_pos hi, fun hi => ⟨_, if_neg (by simp [hi]), ?_⟩⟩
        exact h.answered hc hpend rfl (List.subset_append_left _ _) (Or.inl rfl) (fun _ _ => Or.inl) rfl rfl

theorem Inv.settles_handle (h : s.Inv) (e : Event) : Settles (s.losesInternal e) (s.handle e) := by
  cases e with
  | send p =>
    have hinv := h.of_besidesQueue (besidesQueue_sendFrom s p)
    exact .of_ok rfl ⟨_, rfl, hinv.congr rfl rfl rfl rfl rfl rfl⟩
  | mainLoop err =>
    refine .of_ok rfl ?_
    by_cases hd : s.dispatching
    · exact ⟨s, if_pos hd, h⟩
    · obtain ⟨hctx, hno⟩ := h.starting (by simpa using hd)
      exact ⟨_, if_neg hd, h.connect hctx hno s.masterAddr err id⟩
  | connect ok now nowMs =>
    refine .of_ok rfl ?_
    unfold handle
    cases hc : s.master.context with
    | none => exact ⟨s, rfl, h⟩
    | some c =>
      by_cases hconn : c.connected
      · exact ⟨s, if_pos hconn, h⟩
      · simp only [hconn]
        exact h.redisConnect hc (by simpa using hconn) ok now nowMs
  | reply reply now => exact h.settles_reply reply now
  | disconnect errstr now =>
    cases hc : s.master.context with
    | none => exact .of_ok (by simp [losesInternal, frees, hc]) ⟨s, by simp only [handle, hc], h⟩
    | some c =>
      by_cases hconn : c.connected
      · have hhandle : s.handle (.disconnect errstr now) = s.redisAsyncFree now { c with errstr := errstr } := by
          simp only [handle, hc, hconn, if_true]
        have hbad : s.losesInternal (.disconnect errstr now) = c.pending.any RedisRequest.internal := by
          simp only [losesInternal, frees, internalPending, hc, Option.any_some, hconn, Bool.true_and]
        rw [hhandle, hbad, redisAsyncFree_eq]
        refine ⟨fun hp => if_pos hp, fun hp => ⟨_, if_neg (by simp [hp]), ?_⟩⟩
        rw [if_pos hconn]
        exact h.disconnected rfl rfl (List.subset_append_left _ _) (Or.inl rfl) rfl rfl
      · refine .of_ok (by simp [losesInternal, frees, hc, hconn]) ⟨s, ?_, h⟩
        simp only [handle, hc, hconn]
        rfl
  | timer now sentinel err =>
    by_cases hd : s.dispatching
    · simpa [losesInternal, frees, handle, hd] using h.settles_timer hd now sentinel err
    · exact .of_ok (by simp [losesInternal, frees, hd]) ⟨s, if_neg hd, h⟩
  | timerMs nowMs =>
    refine .of_ok rfl ?_
    by_cases hd : s.dispatching
    · simpa [handle, hd] using h.timerMs nowMs
    · exact ⟨s, if_neg hd, h⟩
  | checkPing now => exact h.settles_checkPing now
  | close now => exact h.settles_close now

section Runs

variable {readFile : String → Option String} {paths : List String} {scripts : LoadScriptMgr}
  {slots : ℕ → Option RedisRequest} {masterAddr : RedisAddr} {es : List Event}

theorem noHashes_loadScripts (h : LoadScriptMgr.init readFile paths = some scripts) :
    ∀ it ∈ scripts.toList, it.sha1 = "" := by
  have hinsert (m : LoadScriptMgr) (hm : ∀ it ∈ m.toList, it.sha1 = "") :
      ∀ it ∈ (paths.foldl (fun m path => m.insert ⟨path, "", "", 0⟩) m).toList, it.sha1 = "" := by
    clear h
    induction paths generalizing m with
    | nil => exact hm
    | cons path paths ih =>
      refine ih _ fun it hit => ?_
      rcases mem_insertUnique hit with rfl | hit
      · rfl
      · exact hm it hit
  simp only [LoadScriptMgr.init] at h
  split at h
  · obtain rfl := Option.some.inj h
    simp only [Keyed.toList_map, List.mem_map, forall_exists_index, and_imp]
    rintro _ it hit rfl
    exact hinsert default (fun _ h => absurd h List.not_mem_nil) it hit
  · cases h

theorem inv_init (h : LoadScriptMgr.init readFile paths = some scripts) : (init slots scripts masterAddr).Inv := by
  refine ⟨fun _ => rfl, nofun, nofun, nofun, nofun, nofun, fun _ => ⟨rfl, ?_⟩⟩
  intro f sha hf
  simp only [sha1s, init, List.mem_map, Prod.mk.injEq] at hf
  obtain ⟨it, hit, -, rfl⟩ := hf
  exact noHashes_loadScripts h it hit

theorem Inv.of_handle (h : s.Inv) {e : Event} {t : RedisManager} (ht : s.handle e = .ok t) : t.Inv := by
  cases hbad : s.losesInternal e with
  | true =>
    rw [(h.settles_handle e).error hbad] at ht
    cases ht
  | false =>
    obtain ⟨t', ht', hinv⟩ := (h.settles_handle e).ok hbad
    obtain rfl := Except.ok.inj (ht.symm.trans ht')
    exact hinv

/-- The invariant holds wherever a run of the Redis thread gets to. -/
theorem inv_of_run (h : LoadScriptMgr.init readFile paths = some scripts)
    (hrun : runAll handle (init slots scripts masterAddr) es = .ok s) : s.Inv :=
  runAll_invariant (fun _ _ _ hs ht => hs.of_handle ht) hrun (inv_init h)

end Runs

end CppBase.RedisTool.RedisManager
