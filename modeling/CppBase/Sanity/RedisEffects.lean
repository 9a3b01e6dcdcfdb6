import Mathlib.Tactic.Tauto
import CppBase.Lib.Fold
import CppBase.Spec.RedisManager

/-! What the functions of the Redis thread do to the connection, the script
hashes and the history, stated once for each of them. -/

namespace CppBase.RedisTool

open CppBase.Lib CppBase.Ring

/-- Answered by `onRedisPing` or `onRedisAuth`, which `redisCommandCallback` tells by the type. -/
def RedisRequest.internal (r : RedisRequest) : Bool := r.type = redisUriPing || r.type = redisUriAuth

/-- The callbacks a dying context still makes. -/
def Context.nulls (c : Context) : List Callback := c.pending.map fun r => ⟨c.id, r, none⟩

namespace RedisManager

variable {s t : RedisManager} {now : ℕ} {c : Context}

def sha1s (s : RedisManager) : List (String × String) := s.scripts.toList.map fun it => (it.file, it.sha1)

def internalPending (s : RedisManager) : Bool :=
  match s.master.context with
  | none => false
  | some c => c.pending.any RedisRequest.internal

section Sending

/-- `send` returns true whether or not the queue had room. -/
theorem send_eq (s : RedisManager) (p : RedisRequest) :
    s.send (some p) = (true, { s with
      rbIn := (s.rbIn.write (some p)).2
      deleted := if (s.rbIn.write (some p)).1 then s.deleted else s.deleted ++ [p] }) := by
  cases hw : (s.rbIn.write (some p)).1 <;> simp [send, enqueRequest, hw]

/-- Everything `send` and `load` leave alone. -/
def besidesQueue (s : RedisManager) :=
  (s.master, s.masterAddr, s.lastTimeOutTimeStamp, s.dispatching, s.nextContext, s.sends, s.executed, s.callbacks,
    s.evals, s.sha1s)

theorem besidesQueue_send (s : RedisManager) (p : Option RedisRequest) :
    (s.send p).2.besidesQueue = s.besidesQueue := by
  cases p with
  | none => rfl
  | some p =>
    rw [send_eq]
    rfl

theorem sha1s_stamp (s : RedisManager) (filePath : String) (nowMs : UInt64) :
    ({ s with scripts := s.scripts.stamp filePath nowMs } : RedisManager).sha1s = s.sha1s := by
  simp only [sha1s, LoadScriptMgr.stamp, Keyed.toList_map, List.map_map]
  apply List.map_congr_left
  intro it _
  simp only [Function.comp_apply]
  split <;> rfl

theorem besidesQueue_loadItem (nowMs : UInt64) (s : RedisManager) (it : RedisScriptItem) :
    (loadItem nowMs s it).besidesQueue = s.besidesQueue := by
  unfold loadItem
  split
  · rw [besidesQueue_send]
    simp only [besidesQueue, Prod.mk.injEq, true_and]
    exact sha1s_stamp s it.file nowMs
  · rfl

theorem besidesQueue_load (s : RedisManager) (nowMs : UInt64) : (s.load nowMs).besidesQueue = s.besidesQueue :=
  foldl_frame (besidesQueue_loadItem nowMs) _ s

theorem besidesQueue_sendFrom (s : RedisManager) (p : Option RedisRequest) :
    { s.sendFrom p with sends := s.sends }.besidesQueue = s.besidesQueue := by
  cases p with
  | none => rfl
  | some p =>
    have h := besidesQueue_send s (some p)
    simp only [besidesQueue, Prod.mk.injEq] at h ⊢
    simp only [sendFrom]
    tauto

end Sending

section Executing

/-- The effect of `Execute` on a connection: at most one more command is pending. -/
structure Executed (s : RedisManager) (request : RedisRequest) (c : Context) (t : RedisManager) : Prop where
  rbIn : t.rbIn = s.rbIn
  scripts : t.scripts = s.scripts
  stat : t.master.stat = s.master.stat
  dispatching : t.dispatching = s.dispatching
  nextAddress : t.nextAddress = s.nextAddress
  sends : t.sends = s.sends
  executed : t.executed = s.executed ++ [request]
  callbacks : t.callbacks = s.callbacks
  context : ∃ c', t.master.context = some c' ∧ c'.id = c.id ∧ c'.connected = c.connected ∧
    (c'.pending = c.pending ∨ c'.pending = c.pending ++ [request] ∧ request.cls ≠ .base)
  evals : t.evals = s.evals ∨ ∃ f, t.evals = s.evals ++ [⟨c.id, f, s.scripts.getSha1 f⟩]

theorem execute_ok (hc : s.master.context = some c) (request : RedisRequest) :
    ∃ t, s.execute request = .ok t ∧ Executed s request c t := by
  unfold execute redisCommand
  cases hcls : request.cls with
  | base => exact ⟨_, rfl, rfl, rfl, rfl, rfl, rfl, rfl, rfl, rfl, ⟨c, hc, rfl, rfl, Or.inl rfl⟩, Or.inl rfl⟩
  | loadScript f =>
    simp only [hc]
    split
    · exact ⟨_, rfl, rfl, rfl, rfl, rfl, rfl, rfl, rfl, rfl, ⟨c, hc, rfl, rfl, Or.inl rfl⟩, Or.inl rfl⟩
    · exact ⟨_, rfl, rfl, rfl, rfl, rfl, rfl, rfl, rfl, rfl, ⟨_, rfl, rfl, rfl, Or.inr ⟨rfl, by simp [hcls]⟩⟩,
        Or.inl rfl⟩
  | evalScript f =>
    simp only [hc]
    exact ⟨_, rfl, rfl, rfl, rfl, rfl, rfl, rfl, rfl, rfl, ⟨_, rfl, rfl, rfl, Or.inr ⟨rfl, by simp [hcls]⟩⟩,
      Or.inr ⟨f, rfl⟩⟩
  | other =>
    simp only [hc]
    exact ⟨_, rfl, rfl, rfl, rfl, rfl, rfl, rfl, rfl, rfl, ⟨_, rfl, rfl, rfl, Or.inr ⟨rfl, by simp [hcls]⟩⟩,
      Or.inl rfl⟩

/-- What taking a request off the queue and executing one preserve, the loop of `timer_ms` preserves;
it goes through on a live connection. -/
theorem drain_ok {I : RedisManager → Prop} (hctx : ∀ s, I s → ∃ c, s.master.context = some c)
    (hpop : ∀ s b, I s → I { s with rbIn := b })
    (hexec : ∀ s request c t, I s → s.master.context = some c → Executed s request c t → I t)
    (fuel : ℕ) (hs : I s) : ∃ t, drain fuel s = .ok t ∧ I t := by
  induction fuel generalizing s with
  | zero => exact ⟨s, rfl, hs⟩
  | succ fuel ih =>
    rcases hread : s.rbIn.read with ⟨_ | _ | request, b⟩
    · exact ⟨s, by simp only [drain, hread], hs⟩
    · obtain ⟨t, ht, hI⟩ := ih (hpop s b hs)
      exact ⟨t, by simp only [drain, hread, ht], hI⟩
    · obtain ⟨c, hc⟩ := hctx s hs
      obtain ⟨u, hu, heff⟩ := execute_ok (s := { s with rbIn := b }) hc request
      obtain ⟨t, ht, hI⟩ := ih (hexec _ request c u (hpop s b hs) hc heff)
      exact ⟨t, by simp only [drain, hread, hu, ht], hI⟩

end Executing

section Callbacks

/-- A null reply ends in a null dereference for `AUTH` and `PING` and changes nothing for the others. -/
theorem callback_null (now : ℕ) (c : Context) (s : RedisManager) (r : RedisRequest) :
    redisCommandCallback now c none s r =
      if r.internal then .error .nullReply else .ok { s with callbacks := s.callbacks ++ [⟨c.id, r, none⟩] } := by
  unfold redisCommandCallback RedisRequest.internal
  by_cases h1 : r.type = redisUriPing
  · simp [h1, onRedisPing]
  · by_cases h2 : r.type = redisUriAuth
    · rw [if_neg h1, if_pos h2, if_pos (by simp [h2])]
      rfl
    · simp only [h1, h2, if_false, decide_false, Bool.or_self, Bool.false_eq_true]
      split
      · rfl
      · cases r.cls <;> simp [onReplyImpl, strError]

theorem runAll_callback_null (now : ℕ) (c : Context) (s : RedisManager) (rs : List RedisRequest) :
    runAll (redisCommandCallback now c none) s rs =
      if rs.any RedisRequest.internal then .error .nullReply
      else .ok { s with callbacks := s.callbacks ++ rs.map fun r => ⟨c.id, r, none⟩ } := by
  induction rs generalizing s with
  | nil => simp
  | cons r rs ih =>
    rw [runAll, callback_null]
    by_cases hr : r.internal
    · simp [hr]
    · simp only [hr, if_false, Bool.false_eq_true, ih, List.any_cons, Bool.false_or, List.map_cons]
      simp [List.append_assoc]

theorem redisAsyncFree_eq (s : RedisManager) (now : ℕ) (c : Context) :
    s.redisAsyncFree now c =
      if c.pending.any RedisRequest.internal then .error .nullReply
      else .ok (if c.connected then { s with callbacks := s.callbacks ++ c.nulls }.redisDisconnect
        else { s with callbacks := s.callbacks ++ c.nulls }) := by
  rw [redisAsyncFree, runAll_callback_null]
  by_cases h : c.pending.any RedisRequest.internal
  · rw [if_pos h, if_pos h]
  · rw [if_neg h, if_neg h]
    rfl

def closed (s : RedisManager) : RedisManager :=
  { s with
    master := { s.master with context := none, stat := .nullStat }
    scripts := s.scripts.clearSha1
    callbacks := s.callbacks ++ (s.master.context.map Context.nulls).getD [] }

theorem close_eq (s : RedisManager) (now : ℕ) :
    s.close now = if s.internalPending then .error .nullReply else .ok s.closed := by
  unfold close internalPending closed
  cases hc : s.master.context with
  | none => simp [bind, Except.bind]
  | some c =>
    simp only [redisAsyncFree_eq]
    by_cases h : c.pending.any RedisRequest.internal
    · simp only [h, if_true]
      rfl
    · by_cases hconn : c.connected
      · simp [h, hconn, redisDisconnect, bind, Except.bind]
      · simp [h, hconn, bind, Except.bind]

structure Replied (s : RedisManager) (c : Context) (request : RedisRequest) (reply : RedisReply) (t : RedisManager) :
    Prop where
  callbacks : t.callbacks = s.callbacks ++ [⟨c.id, request, some reply⟩]
  context : t.master.context = s.master.context
  dispatching : t.dispatching = s.dispatching
  evals : t.evals = s.evals
  stat : t.master.stat = s.master.stat ∨
    t.master.stat = .working ∧ request.type = redisUriAuth ∧ reply.type ≠ .error
  scripts : t.scripts = s.scripts ∨
    ∃ f, request.cls = .loadScript f ∧ reply.type = .string ∧ t.scripts = s.scripts.setSha1 f reply.str

theorem callback_some (now : ℕ) (c : Context) (s : RedisManager) (request : RedisRequest) (reply : RedisReply) :
    ∃ t, redisCommandCallback now c (some reply) s request = .ok t ∧ Replied s c request reply t := by
  unfold redisCommandCallback
  by_cases h1 : request.type = redisUriPing
  · simp only [h1, if_true, onRedisPing]
    split <;> exact ⟨_, rfl, rfl, rfl, rfl, rfl, Or.inl rfl, Or.inl rfl⟩
  · by_cases h2 : request.type = redisUriAuth
    · rw [if_neg h1, if_pos h2, onRedisAuth]
      by_cases h3 : reply.type = .error
      · rw [if_pos h3]
        exact ⟨_, rfl, rfl, rfl, rfl, rfl, Or.inl rfl, Or.inl rfl⟩
      · rw [if_neg h3]
        exact ⟨_, rfl, rfl, rfl, rfl, rfl, Or.inr ⟨rfl, h2, h3⟩, Or.inl rfl⟩
    · simp only [h1, h2, if_false]
      by_cases h3 : request.type = ""
      · simp only [h3, if_true]
        exact ⟨_, rfl, rfl, rfl, rfl, rfl, Or.inl rfl, Or.inl rfl⟩
      · simp only [h3, if_false]
        cases hcls : request.cls with
        | loadScript f =>
          simp only [onReplyImpl]
          split
          · exact ⟨_, rfl, rfl, rfl, rfl, rfl, Or.inl rfl, Or.inl rfl⟩
          · by_cases h4 : reply.type = .string
            · simp only [h4, ne_eq, not_true_eq_false, if_false]
              exact ⟨_, rfl, rfl, rfl, rfl, rfl, Or.inl rfl, Or.inr ⟨f, hcls, h4, rfl⟩⟩
            · simp only [h4, ne_eq, not_false_eq_true, if_true]
              exact ⟨_, rfl, rfl, rfl, rfl, rfl, Or.inl rfl, Or.inl rfl⟩
        | _ => exact ⟨_, rfl, rfl, rfl, rfl, rfl, Or.inl rfl, Or.inl rfl⟩

end Callbacks

end RedisManager

end CppBase.RedisTool
