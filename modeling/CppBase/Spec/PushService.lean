import Mathlib.Logic.Function.Basic
import Mathlib.Data.Int.Notation
import Mathlib.Data.Nat.Notation

/-! The retry buffer of `async_cpp/pushservice.cpp`. A locked block is one step,
and so is each HTTP post; the steps of the threads come in any order, at any time. -/

namespace CppBase.AsyncCpp

def processErrorOk : ℤ := 0

/-- `serial` tells one accepted message from the next; no function reads it. -/
structure PushMessage where
  hostport : String
  traceId : String
  result : String
  createTime : ℤ
  nextHop : ℤ := 0
  serial : ℕ
  deriving DecidableEq

inductive PushThread
  | idle
  /-- The post number `x` comes next. -/
  | posting (msg : PushMessage) (x : ℕ) (ret : ℤ)
  /-- Behind the loop; `answered` records whether a post got a 200. -/
  | finishing (msg : PushMessage) (ret : ℤ) (answered : Bool)
  deriving DecidableEq

/-- The list and the threads, and what has happened: the serials of the messages
answered with 200, the rounds with the time they started at, and the messages of
the rounds that returned with no such answer. -/
structure PushService (n : ℕ) where
  messages : List PushMessage
  threads : Fin n → PushThread
  nextSerial : ℕ
  delivered : List ℕ
  rounds : List (PushMessage × ℤ)
  failed : List PushMessage

namespace PushService

variable {n : ℕ}

def init (n : ℕ) : PushService n := ⟨[], fun _ => .idle, 0, [], [], []⟩

def setThread (s : PushService n) (t : Fin n) (th : PushThread) : PushService n :=
  { s with threads := Function.update s.threads t th }

/-- `now` is when the message was created, in seconds. -/
def addMsgToBuffer (s : PushService n) (traceid server result : String) (now : ℤ) : Bool × PushService n :=
  if s.messages.length > 1000 then (false, s)
  else
    (true,
      { s with
        messages := s.messages ++
          [{ hostport := server, traceId := traceid, result, createTime := now, serial := s.nextSerial }]
        nextSerial := s.nextSerial + 1 })

/-- The first locked block of `flushMsg`, at the time `now`. -/
def flushBegin (s : PushService n) (t : Fin n) (now : ℤ) : PushService n :=
  match s.messages with
  | [] => s
  | msg :: rest =>
    if msg.createTime + msg.nextHop > now then { s with messages := rest ++ [msg] }
    else
      { s with
        messages := rest
        threads := Function.update s.threads t (.posting msg 0 processErrorOk)
        rounds := s.rounds ++ [(msg, now)] }

/-- One round of the loop over `x`, where the server answers with `code`. -/
def flushPost (s : PushService n) (t : Fin n) (msg : PushMessage) (x : ℕ) (ret code : ℤ) : PushService n :=
  if 200 ≠ code then
    if x + 1 < 3 then s.setThread t (.posting msg (x + 1) ret) else s.setThread t (.finishing msg ret false)
  else { s.setThread t (.finishing msg processErrorOk true) with delivered := s.delivered ++ [msg.serial] }

/-- The end of `flushMsg`, with its second locked block. -/
def flushEnd (s : PushService n) (t : Fin n) (msg : PushMessage) (ret : ℤ) (answered : Bool) : PushService n :=
  let u := { s.setThread t .idle with failed := if answered then s.failed else s.failed ++ [msg] }
  if processErrorOk ≠ ret ∧ msg.nextHop < 300 then
    { u with messages := u.messages ++ [{ msg with nextHop := msg.nextHop + 15 }] }
  else u

inductive Event (n : ℕ)
  | add (traceid server result : String) (now : ℤ)
  | flush (t : Fin n) (now : ℤ)
  | post (t : Fin n) (code : ℤ)
  | finish (t : Fin n)

/-- An event that the thread is not ready for does nothing. -/
def step (s : PushService n) : Event n → PushService n
  | .add traceid server result now => (s.addMsgToBuffer traceid server result now).2
  | .flush t now =>
    match s.threads t with
    | .idle => s.flushBegin t now
    | _ => s
  | .post t code =>
    match s.threads t with
    | .posting msg x ret => s.flushPost t msg x ret code
    | _ => s
  | .finish t =>
    match s.threads t with
    | .finishing msg ret answered => s.flushEnd t msg ret answered
    | _ => s

def run (n : ℕ) (events : List (Event n)) : PushService n := events.foldl step (init n)

end PushService

end CppBase.AsyncCpp
