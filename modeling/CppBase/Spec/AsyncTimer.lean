import Mathlib.Logic.Function.Basic
import CppBase.Lib.Fallible
import CppBase.Lib.Multimap

/-! `utility/AsyncTimer.cpp`. Whatever a call does to the timer it does under the mutex, so these parts
of the threads' calls are one sequence. `check` makes its callbacks behind the unlock, in the order in
which it has collected them; `fired` records that one was collected, and what other threads do before
it is made comes later in the sequence. -/

namespace CppBase.Utility

open CppBase.Lib

abbrev TimerCallback := ℕ

/-- `serial` tells one `make_shared` from the next. -/
structure WaitEvent where
  serial : ℕ
  isTimer : Bool
  interval : ℤ
  callback : TimerCallback
  deriving DecidableEq

/-- A call of `addTimer` or `addAfter`: the name, the time of the call, the interval or wait, the event made. -/
structure Registration where
  name : String
  time : ℤ
  wait : ℤ
  event : WaitEvent
  deriving DecidableEq

inductive TimerRecord
  | registered (r : Registration)
  | deleted (name : String)
  | fired (name : String) (ev : WaitEvent) (now : ℤ)
  deriving DecidableEq

/-- The timer; no function reads the history. -/
structure AsyncTimer where
  start : Bool
  timers : Multimap ℤ String
  events : String → Option WaitEvent
  nextSerial : ℕ
  history : List TimerRecord

namespace AsyncTimer

/-- The loop of `check` never ends. -/
inductive Fault
  | hangs
  deriving DecidableEq

def init : AsyncTimer := ⟨false, default, fun _ => none, 0, []⟩

def register (s : AsyncTimer) (now : ℤ) (name : String) (wait : ℤ) (ev : WaitEvent) : AsyncTimer :=
  { s with
    events := Function.update s.events name (some ev)
    timers := s.timers.insert (now + wait) name
    nextSerial := s.nextSerial + 1
    history := s.history ++ [.registered ⟨name, now, wait, ev⟩] }

def addTimer (s : AsyncTimer) (now : ℤ) (name : String) (interval : ℤ) (callback : TimerCallback) : AsyncTimer :=
  s.register now name interval ⟨s.nextSerial, true, interval, callback⟩

def addAfter (s : AsyncTimer) (now : ℤ) (name : String) (wait : ℤ) (callback : TimerCallback) : AsyncTimer :=
  s.register now name wait ⟨s.nextSerial, false, 0, callback⟩

/-- `delTimer` and `delAfter` are the same code. -/
def delTimer (s : AsyncTimer) (name : String) : AsyncTimer :=
  { s with events := Function.update s.events name none, history := s.history ++ [.deleted name] }

def delAfter (s : AsyncTimer) (name : String) : AsyncTimer := s.delTimer name

/-- The loop of `check` with the vector of events to fire, each with the name it was found under. -/
def checkLoop (now : ℤ) :
    ℕ → AsyncTimer → List (String × WaitEvent) → Except Fault (AsyncTimer × List (String × WaitEvent))
  | 0, _, _ => .error .hangs
  | fuel + 1, s, fires =>
    match s.timers.toList with
    | [] => .ok (s, fires)
    | (due, name) :: _ =>
      if due > now then .ok (s, fires)
      else
        let t := { s with timers := s.timers.eraseBegin }
        match t.events name with
        | none => checkLoop now fuel t fires
        | some ev =>
          if ev.isTimer then
            checkLoop now fuel { t with timers := t.timers.insert (now + ev.interval) name } (fires ++ [(name, ev)])
          else
            checkLoop now fuel { t with events := Function.update t.events name none } (fires ++ [(name, ev)])

/-- A round for each entry and one more end the loop, unless a timer is due again
as soon as it has fired; then nothing does. -/
def check (s : AsyncTimer) (now : ℤ) : Except Fault (Bool × AsyncTimer) :=
  if s.start = false then .ok (false, s)
  else
    match s.checkLoop now (s.timers.toList.length + 1) [] with
    | .ok (t, fires) => .ok (true, { t with history := t.history ++ fires.map fun f => .fired f.1 f.2 now })
    | .error f => .error f

inductive Op
  | start
  | stop
  | addTimer (now : ℤ) (name : String) (interval : ℤ) (callback : TimerCallback)
  | delTimer (name : String)
  | addAfter (now : ℤ) (name : String) (wait : ℤ) (callback : TimerCallback)
  | delAfter (name : String)
  | check (now : ℤ)

def step (s : AsyncTimer) : Op → Except Fault AsyncTimer
  | .start => .ok { s with start := true }
  | .stop => .ok { s with start := false }
  | .addTimer now name interval callback => .ok (s.addTimer now name interval callback)
  | .delTimer name => .ok (s.delTimer name)
  | .addAfter now name wait callback => .ok (s.addAfter now name wait callback)
  | .delAfter name => .ok (s.delAfter name)
  | .check now => (s.check now).map Prod.snd

end AsyncTimer

end CppBase.Utility
