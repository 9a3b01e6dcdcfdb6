import CppBase.Lib.Fallible
import CppBase.Spec.RedisRequest
import CppBase.Spec.RingBuffer

/-! The Redis thread of `redistool/RedisManager.cpp`: the request queue, the
connection to the master and the callbacks hiredis makes. A context of hiredis
keeps the commands that still wait for their reply; freeing or losing it hands
each of them a null reply and then reports the disconnection. -/

namespace CppBase.RedisTool

open CppBase.Lib CppBase.Ring

structure RedisAddr where
  ip : String
  port : ℕ
  deriving DecidableEq

def RedisAddr.empty (addr : RedisAddr) : Bool := addr.ip = "" || addr.port = 0

inductive Stat
  | nullStat
  | waitConn
  | waitAuth
  | working
  deriving DecidableEq

/-- A `redisAsyncContext`; `id` tells one connection from the next. -/
structure Context where
  id : ℕ
  errstr : Option String
  connected : Bool
  pending : List RedisRequest
  deriving DecidableEq

structure RedisAsync where
  stat : Stat
  addr : RedisAddr
  context : Option Context
  lastPing : ℕ
  lastPingSend : ℕ
  deriving DecidableEq

/-- A call of `send` from outside: what it returned, and whether the request was appended to `m_rbIn`. -/
structure SendRecord where
  request : RedisRequest
  returned : Bool
  placed : Bool
  deriving DecidableEq

structure Callback where
  context : ℕ
  request : RedisRequest
  reply : Option RedisReply
  deriving DecidableEq

structure EvalSha where
  context : ℕ
  filePath : String
  sha1 : String
  deriving DecidableEq

/-- The manager, its `_master`, the script table and the static of `checkMaster`.
The fields from `sends` on are a history that no function reads. -/
structure RedisManager where
  rbIn : RingBuffer (Option RedisRequest)
  scripts : LoadScriptMgr
  master : RedisAsync
  masterAddr : RedisAddr
  lastTimeOutTimeStamp : UInt32
  dispatching : Bool
  nextAddress : ℕ
  nextContext : ℕ
  sends : List SendRecord
  executed : List RedisRequest
  deleted : List RedisRequest
  callbacks : List Callback
  evals : List EvalSha

/-- Reading a field of a null reply, or a command on a null context. -/
inductive Fault
  | nullReply
  | nullContext
  deriving DecidableEq

/-- What happens to the Redis thread, and `send` by an outside thread. Each event
carries the clock readings and the answers from the network that it needs. -/
inductive Event
  | send (pRequest : Option RedisRequest)
  | mainLoop (err : Bool)
  | connect (ok : Bool) (now : ℕ) (nowMs : UInt64)
  | reply (reply : Option RedisReply) (now : ℕ)
  | disconnect (errstr : Option String) (now : ℕ)
  | timer (now : ℕ) (sentinel : Option RedisAddr) (err : Bool)
  | timerMs (nowMs : UInt64)
  | checkPing (now : ℕ)
  | close (now : ℕ)

def maxRingBufferSlotCount : UInt32 := 8 * 1024

namespace RedisManager

/-- After `init` and `new RedisAsync`. -/
def init (slots : ℕ → Option RedisRequest) (scripts : LoadScriptMgr) (masterAddr : RedisAddr) : RedisManager :=
  { rbIn := .create maxRingBufferSlotCount slots
    scripts := scripts
    master := ⟨.nullStat, ⟨"", 0⟩, none, 0, 0⟩
    masterAddr := masterAddr
    lastTimeOutTimeStamp := 0
    dispatching := false
    nextAddress := 0
    nextContext := 0
    sends := []
    executed := []
    deleted := []
    callbacks := []
    evals := [] }

section Queue

def enqueRequest (s : RedisManager) (p : Option RedisRequest) : Bool × RedisManager :=
  ((s.rbIn.write p).1, { s with rbIn := (s.rbIn.write p).2 })

def send (s : RedisManager) : Option RedisRequest → Bool × RedisManager
  | none => (false, s)
  | some pRequest =>
    let t := (s.enqueRequest (some pRequest)).2
    -- a full queue is logged and the request freed, and the call still returns true
    if (s.enqueRequest (some pRequest)).1 then (true, t) else (true, { t with deleted := t.deleted ++ [pRequest] })

def loadItem (nowMs : UInt64) (s : RedisManager) (it : RedisScriptItem) : RedisManager :=
  if it.due nowMs then
    let pRequest : RedisRequest := ⟨s.nextAddress, it.file, .loadScript it.file⟩
    ({ s with scripts := s.scripts.stamp it.file nowMs, nextAddress := s.nextAddress + 1 }.send (some pRequest)).2
  else s

def load (s : RedisManager) (nowMs : UInt64) : RedisManager :=
  s.scripts.toList.foldl (loadItem nowMs) s

end Queue

section Commands

/-- Both overloads of `RedisAsync::redisCommand`, from the request on. -/
def redisCommand (s : RedisManager) (request : RedisRequest) : Except Fault RedisManager :=
  match s.master.context with
  | none => .error .nullContext
  | some c => .ok { s with master := { s.master with context := some { c with pending := c.pending ++ [request] } } }

/-- `redisCommand(cmdtype, …)` makes its own request. -/
def redisCommandOf (s : RedisManager) (cmdtype : String) : Except Fault RedisManager :=
  let t := { s with nextAddress := s.nextAddress + 1 }
  t.redisCommand ⟨s.nextAddress, cmdtype, .base⟩

/-- `RedisRequest::Execute` with the `ExecuteImpl` of each class. -/
def execute (s : RedisManager) (request : RedisRequest) : Except Fault RedisManager :=
  let t := { s with executed := s.executed ++ [request] }
  match request.cls with
  | .base => .ok t
  | .loadScript filePath => if t.scripts.getScript filePath = "" then .ok t else t.redisCommand request
  | .evalScript filePath =>
    match t.master.context with
    | none => .error .nullContext
    | some c =>
      let command : EvalSha := ⟨c.id, filePath, t.scripts.getSha1 filePath⟩
      { t with evals := t.evals ++ [command] }.redisCommand request
  | .other => t.redisCommand request

/-- `while (m_rbIn.read(&pRaw))`; one call more than the queue has items ends it. -/
def drain : ℕ → RedisManager → Except Fault RedisManager
  | 0, s => .ok s
  | fuel + 1, s =>
    match s.rbIn.read with
    | (none, _) => .ok s
    | (some none, b) => drain fuel { s with rbIn := b }
    | (some (some pRequest), b) =>
      match { s with rbIn := b }.execute pRequest with
      | .ok t => drain fuel t
      | .error f => .error f

def timerMs (s : RedisManager) (nowMs : UInt64) : Except Fault RedisManager :=
  if s.master.stat ≠ .working then .ok s
  else
    let t := s.load nowMs
    drain (t.rbIn.size.toNat + 1) t

end Commands

section Callbacks

def onRedisAuth (s : RedisManager) (now : ℕ) : Option RedisReply → Except Fault RedisManager
  | none => .error .nullReply
  | some reply =>
    if reply.type = .error then .ok s
    else .ok { s with master := { s.master with lastPing := now, stat := .working } }

def onRedisPing (s : RedisManager) (now : ℕ) : Option RedisReply → Except Fault RedisManager
  | none => .error .nullReply
  | some reply =>
    if reply.type = .error then .ok s else .ok { s with master := { s.master with lastPing := now } }

/-- `LoadScriptRequest::OnReplyImpl`, with `m_strError` as `OnReply` left it. -/
def onReplyImpl (s : RedisManager) (filePath strError : String) (reply : Option RedisReply) :
    Except Fault RedisManager :=
  if strError ≠ "" then .ok s
  else
    match reply with
    | none => .error .nullReply
    | some r => if r.type ≠ .string then .ok s else .ok { s with scripts := s.scripts.setSha1 filePath r.str }

/-- A null reply is logged and handed on; `OnReplyImpl` of the callers' classes is theirs. -/
def redisCommandCallback (now : ℕ) (c : Context) (reply : Option RedisReply) (s : RedisManager)
    (request : RedisRequest) : Except Fault RedisManager :=
  let t := { s with callbacks := s.callbacks ++ [⟨c.id, request, reply⟩] }
  if request.type = redisUriPing then t.onRedisPing now reply
  else if request.type = redisUriAuth then t.onRedisAuth now reply
  else if request.type = "" then .ok t
  else
    match request.cls with
    | .loadScript filePath => t.onReplyImpl filePath (strError c.errstr reply) reply
    | _ => .ok t

def redisDisconnect (s : RedisManager) : RedisManager :=
  { s with master := { s.master with stat := .nullStat, context := none } }

/-- `redisAsyncFree`: null replies for what is pending, then the disconnect callback. -/
def redisAsyncFree (s : RedisManager) (now : ℕ) (c : Context) : Except Fault RedisManager :=
  match runAll (redisCommandCallback now c none) s c.pending with
  | .ok t => .ok (if c.connected then t.redisDisconnect else t)
  | .error f => .error f

end Callbacks

section Connection

/-- `err` is whether `redisAsyncConnect` returned a context with an error. -/
def connect (s : RedisManager) (addr : RedisAddr) (err : Bool) : Bool × RedisManager :=
  if addr.empty then (false, s)
  else if err then
    (false, { s with nextContext := s.nextContext + 1, master := { s.master with addr := addr, context := none } })
  else
    (true, { s with
      nextContext := s.nextContext + 1
      master := { s.master with
        addr := addr
        stat := .waitConn
        context := some ⟨s.nextContext, none, false, []⟩ } })

def close (s : RedisManager) (now : ℕ) : Except Fault RedisManager := do
  let t ← match s.master.context with
    | some c => s.redisAsyncFree now c
    | none => .ok s
  .ok { t with
    master := { t.master with context := none, stat := .nullStat }
    scripts := t.scripts.clearSha1 }

def checkPing (s : RedisManager) (now : ℕ) : Except Fault RedisManager :=
  if s.master.stat ≠ .working then .ok s
  else if s.master.lastPing + 15 < now then s.close now
  else if s.master.lastPingSend + 5 < now then do
    let t ← s.redisCommandOf redisUriPing
    .ok { t with master := { t.master with lastPingSend := now } }
  else .ok s

/-- The connect callback; where it reports an error hiredis then frees the context `c`. -/
def redisConnect (s : RedisManager) (c : Context) (ok : Bool) (now : ℕ) (nowMs : UInt64) :
    Except Fault RedisManager :=
  if ok then do
    let t := { s with master := { s.master with stat := .waitAuth, context := some { c with connected := true } } }
    let t ← t.redisCommandOf redisUriAuth
    .ok (t.load nowMs)
  else s.redisDisconnect.redisAsyncFree now c

/-- `sentinel` is the address `getMasterAddr` finds, if any. -/
def checkMaster (s : RedisManager) (now : ℕ) (sentinel : Option RedisAddr) (err : Bool) :
    Except Fault RedisManager :=
  if s.master.stat = .working then .ok s
  else if s.lastTimeOutTimeStamp + 30 < UInt32.ofNat now then do
    let t ← { s with lastTimeOutTimeStamp := UInt32.ofNat now }.close now
    match sentinel with
    | none => .ok t
    | some addr => .ok ({ t with masterAddr := addr }.connect addr err).2
  else .ok s

def timer (s : RedisManager) (now : ℕ) (sentinel : Option RedisAddr) (err : Bool) : Except Fault RedisManager := do
  let t ← s.checkMaster now sentinel err
  t.checkPing now

end Connection

def sendFrom (s : RedisManager) : Option RedisRequest → RedisManager
  | none => (s.send none).2
  | some p =>
    let t := (s.send (some p)).2
    let record : SendRecord := ⟨p, (s.send (some p)).1, t.rbIn.queued = s.rbIn.queued ++ [some p]⟩
    { t with sends := t.sends ++ [record] }

/-- One event. Where hiredis or the event loop cannot produce it, nothing happens:
a connect callback for a connection that is up, a reply when nothing is pending,
a timer before `event_base_dispatch`. -/
def handle (s : RedisManager) : Event → Except Fault RedisManager
  | .send p => .ok (s.sendFrom p)
  | .mainLoop err =>
    if s.dispatching then .ok s
    else .ok { (s.connect s.masterAddr err).2 with dispatching := (s.connect s.masterAddr err).1 }
  | .connect ok now nowMs =>
    match s.master.context with
    | some c => if c.connected then .ok s else s.redisConnect c ok now nowMs
    | none => .ok s
  | .reply reply now =>
    match s.master.context with
    | some c =>
      match c.pending with
      | request :: rest =>
        redisCommandCallback now c reply
          { s with master := { s.master with context := some { c with pending := rest } } } request
      | [] => .ok s
    | none => .ok s
  | .disconnect errstr now =>
    match s.master.context with
    | some c => if c.connected then s.redisAsyncFree now { c with errstr := errstr } else .ok s
    | none => .ok s
  | .timer now sentinel err => if s.dispatching then s.timer now sentinel err else .ok s
  | .timerMs nowMs => if s.dispatching then s.timerMs nowMs else .ok s
  | .checkPing now => s.checkPing now
  | .close now => s.close now

end RedisManager

end CppBase.RedisTool
