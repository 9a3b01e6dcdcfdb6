import CppBase.Lib.Fallible
import Mathlib.Data.List.Sort

/-! `muduo/net/TimerQueue` and `Timer`. Timers live on a heap, whose addresses are used again; a
callback is known by the sequence number of its timer, and may itself add and cancel. A thread
that adds a timer hands it to the loop before it reads its number. Times are in microseconds. -/

namespace CppBase.Muduo

open CppBase.Lib

structure Timer where
  expiration : ℤ
  interval : ℤ
  repeats : Bool
  sequence : ℕ
  deriving DecidableEq

def Timer.restart (t : Timer) (now : ℤ) : Timer := { t with expiration := if t.repeats then now + t.interval else 0 }

namespace TimerQueue

/-- `handleRead` under way: the timers that had expired, and those among them still to run. -/
structure Batch where
  now : ℤ
  expired : List (ℤ × ℕ)
  todo : List (ℤ × ℕ)

structure Firing where
  sequence : ℕ
  expiration : ℤ
  now : ℤ
  deriving DecidableEq

inductive Fault
  | assertion
  | dangling
  deriving DecidableEq

end TimerQueue

open TimerQueue

structure TimerQueue where
  heap : ℕ → Option Timer := fun _ => none
  numCreated : ℕ := 0
  /-- Addresses on their way to `addTimerInLoop`. -/
  waiting : List ℕ := []
  timers : List (ℤ × ℕ) := []
  activeTimers : List (ℕ × ℕ) := []
  cancelingTimers : List (ℕ × ℕ) := []
  batch : Option Batch := none
  /-- When the timerfd was set, and what to. -/
  armed : Option (ℤ × ℤ) := none
  ran : List Firing := []
  /-- Calls of `addTimer` that have yet to return: the address and number of the timer. -/
  returning : List (ℕ × ℕ) := []
  /-- What calls of `addTimer` have returned. -/
  issued : List (ℕ × ℕ) := []

namespace TimerQueue

def before (x y : ℤ × ℕ) : Prop := x.1 < y.1 ∨ x.1 = y.1 ∧ x.2 ≤ y.2

instance : DecidableRel before := fun x y => inferInstanceAs (Decidable (x.1 < y.1 ∨ x.1 = y.1 ∧ x.2 ≤ y.2))

def check (p : Prop) [Decidable p] : Except Fault Unit := if p then .ok () else .error .assertion

def deref (s : TimerQueue) (a : ℕ) : Except Fault Timer :=
  match s.heap a with
  | some t => .ok t
  | none => .error .dangling

def free (s : TimerQueue) (a : ℕ) : TimerQueue := { s with heap := Function.update s.heap a none }

/-- `earliestChanged` -/
def isEarliest (s : TimerQueue) (expiration : ℤ) : Bool :=
  match s.timers with
  | [] => true
  | e :: _ => expiration < e.1

def insert (s : TimerQueue) (a : ℕ) : Except Fault (Bool × TimerQueue) := do
  check (s.timers.length = s.activeTimers.length)
  let timer ← s.deref a
  let earliestChanged := s.isEarliest timer.expiration
  check ((timer.expiration, a) ∉ s.timers)
  check ((a, timer.sequence) ∉ s.activeTimers)
  let s := { s with
    timers := s.timers.orderedInsert before (timer.expiration, a)
    activeTimers := (a, timer.sequence) :: s.activeTimers }
  check (s.timers.length = s.activeTimers.length)
  .ok (earliestChanged, s)

/-- `addTimer` up to the hand-over, which other threads may do too. -/
def addTimer (s : TimerQueue) (a : ℕ) (expiration interval : ℤ) (repeats : Bool) : TimerQueue :=
  { s with
    heap := Function.update s.heap a (some { expiration, interval, repeats, sequence := s.numCreated + 1 })
    numCreated := s.numCreated + 1
    waiting := s.waiting ++ [a]
    returning := s.returning ++ [(a, s.numCreated + 1)] }

/-- `return TimerId(timer, timer->sequence())` -/
def addTimerReturn (s : TimerQueue) (id : ℕ × ℕ) : Except Fault TimerQueue := do
  let timer ← s.deref id.1
  .ok { s with returning := s.returning.erase id, issued := s.issued ++ [(id.1, timer.sequence)] }

def howMuchTimeFromNow (expiration now : ℤ) : ℤ := if expiration - now < 100 then 100 else expiration - now

def resetTimerfd (s : TimerQueue) (expiration now : ℤ) : TimerQueue :=
  { s with armed := some (now, now + howMuchTimeFromNow expiration now) }

/-- Where the clock is needed, it shows `now`. -/
def addTimerInLoop (s : TimerQueue) (a : ℕ) (now : ℤ) : Except Fault TimerQueue := do
  let (earliestChanged, s) ← { s with waiting := s.waiting.erase a }.insert a
  if earliestChanged then
    let timer ← s.deref a
    .ok (s.resetTimerfd timer.expiration now)
  else .ok s

def cancelInLoop (s : TimerQueue) (id : ℕ × ℕ) : Except Fault TimerQueue := do
  check (s.timers.length = s.activeTimers.length)
  if id ∈ s.activeTimers then
    let timer ← s.deref id.1
    check ((timer.expiration, id.1) ∈ s.timers)
    let s := { s.free id.1 with
      timers := s.timers.erase (timer.expiration, id.1)
      activeTimers := s.activeTimers.erase id }
    check (s.timers.length = s.activeTimers.length)
    .ok s
  else
    let s := if s.batch.isSome then { s with cancelingTimers := s.cancelingTimers.insert id } else s
    check (s.timers.length = s.activeTimers.length)
    .ok s

def deactivate (s : TimerQueue) (e : ℤ × ℕ) : Except Fault TimerQueue := do
  let timer ← s.deref e.2
  check ((e.2, timer.sequence) ∈ s.activeTimers)
  .ok { s with activeTimers := s.activeTimers.erase (e.2, timer.sequence) }

/-- All entries up to the sentry, whose address is above all others. -/
def getExpired (s : TimerQueue) (now : ℤ) : Except Fault (List (ℤ × ℕ) × TimerQueue) := do
  check (s.timers.length = s.activeTimers.length)
  let expired := s.timers.takeWhile (·.1 ≤ now)
  let rest := s.timers.dropWhile (·.1 ≤ now)
  check (∀ e ∈ rest.head?, now < e.1)
  let s ← runAll deactivate { s with timers := rest } expired
  check (s.timers.length = s.activeTimers.length)
  .ok (expired, s)

/-- `handleRead` up to the callbacks. -/
def handleRead (s : TimerQueue) (now : ℤ) : Except Fault TimerQueue := do
  let (expired, s) ← { s with armed := none }.getExpired now
  .ok { s with batch := some { now, expired, todo := expired }, cancelingTimers := [] }

def run (s : TimerQueue) : Except Fault TimerQueue :=
  match s.batch with
  | some { now, expired, todo := e :: todo } => do
    let timer ← s.deref e.2
    .ok { s with batch := some { now, expired, todo }, ran := s.ran ++ [⟨timer.sequence, timer.expiration, now⟩] }
  | _ => .ok s

def resetOne (now : ℤ) (s : TimerQueue) (e : ℤ × ℕ) : Except Fault TimerQueue := do
  let timer ← s.deref e.2
  if timer.repeats ∧ (e.2, timer.sequence) ∉ s.cancelingTimers then
    let (_, s) ← { s with heap := Function.update s.heap e.2 (some (timer.restart now)) }.insert e.2
    .ok s
  else .ok (s.free e.2)

/-- At the end the clock shows `later`. -/
def reset (s : TimerQueue) (expired : List (ℤ × ℕ)) (now later : ℤ) : Except Fault TimerQueue := do
  let s ← runAll (resetOne now) s expired
  match s.timers with
  | [] => .ok s
  | e :: _ =>
    let timer ← s.deref e.2
    .ok (if 0 < timer.expiration then s.resetTimerfd timer.expiration later else s)

/-- `handleRead` after the callbacks. -/
def finish (s : TimerQueue) (later : ℤ) : Except Fault TimerQueue :=
  match s.batch with
  | some b => { s with batch := none }.reset b.expired b.now later
  | none => .ok s

inductive Event
  | addTimer (a : ℕ) (expiration interval : ℤ) (repeats : Bool)
  | addTimerReturn (id : ℕ × ℕ)
  | addTimerInLoop (a : ℕ) (now : ℤ)
  | cancelInLoop (id : ℕ × ℕ)
  | handleRead (now : ℤ)
  | run
  | finish (later : ℤ)

def step (s : TimerQueue) : Event → Except Fault TimerQueue
  | .addTimer a expiration interval repeats => .ok (s.addTimer a expiration interval repeats)
  | .addTimerReturn id => s.addTimerReturn id
  | .addTimerInLoop a now => s.addTimerInLoop a now
  | .cancelInLoop id => s.cancelInLoop id
  | .handleRead now => s.handleRead now
  | .run => s.run
  | .finish later => s.finish later

end TimerQueue

end CppBase.Muduo
