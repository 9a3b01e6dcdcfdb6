import Mathlib.Logic.Function.Basic
import Mathlib.Data.Nat.Notation
import Mathlib.Data.List.Basic

/-! `muduo/net/EventLoop.cc`: the loop thread and the threads that hand it work. A locked
block is one step, and so is each access to a shared field outside one; what a callback
does besides calling the loop is not part of the model. -/

namespace CppBase.Muduo

namespace EventLoop

inductive Channel
  | wakeup
  | other (fd : ℕ)
  deriving DecidableEq

/-- Where the loop thread stands; `outside` is before `loop()` and after it has returned. -/
inductive Pc (F : Type)
  | outside
  /-- At `while (!quit_)`. -/
  | test
  /-- In `poller_->poll`. -/
  | polling
  /-- In the loop over `activeChannels_`, with those still to come. -/
  | handling (active : List Channel)
  /-- In `doPendingFunctors`, before the swap. -/
  | swapping
  /-- In `doPendingFunctors`, with the functors still to come. -/
  | running (functors : List F)
  deriving DecidableEq

/-- What a thread still has to do in a call of `queueInLoop` or `quit`: the test for a wakeup. -/
inductive Call
  | none
  | queueInLoop
  | quit
  deriving DecidableEq

end EventLoop

/-- `threads none` is the loop thread. The functors in the order they were queued in, and
in the order they were run in, are recorded; no function reads that. -/
structure EventLoop (F ι : Type) where
  pc : EventLoop.Pc F
  quit : Bool
  callingPendingFunctors : Bool
  pendingFunctors : List F
  wakeupFd : ℕ
  threads : Option ι → EventLoop.Call
  queued : List F
  executed : List F

namespace EventLoop

variable {F ι : Type}

def init : EventLoop F ι :=
  { pc := .outside, quit := false, callingPendingFunctors := false, pendingFunctors := [], wakeupFd := 0,
    threads := fun _ => .none, queued := [], executed := [] }

section Eventfd

/-- The largest count; a write that would exceed it fails and changes nothing. -/
def eventfdMax : ℕ := 18446744073709551614

def wakeup (s : EventLoop F ι) : EventLoop F ι :=
  { s with wakeupFd := if s.wakeupFd + 1 ≤ eventfdMax then s.wakeupFd + 1 else s.wakeupFd }

/-- The read callback of the wakeup channel: reading resets the count. -/
def handleRead (s : EventLoop F ι) : EventLoop F ι := { s with wakeupFd := 0 }

end Eventfd

def isInLoopThread : Option ι → Bool
  | none => true
  | some _ => false

/-- The loop thread is in code that was called back, or not in `loop()` at all. -/
def Pc.callsOut : Pc F → Bool
  | .outside | .handling _ | .running _ => true
  | .test | .polling | .swapping => false

section Threads

variable [DecidableEq ι]

def setThread (s : EventLoop F ι) (t : Option ι) (c : Call) : EventLoop F ι :=
  { s with threads := Function.update s.threads t c }

/-- The locked block of `queueInLoop`; for another thread `runInLoop` is the same. -/
def queueInLoop (s : EventLoop F ι) (t : Option ι) (cb : F) : EventLoop F ι :=
  { s.setThread t .queueInLoop with
    pendingFunctors := s.pendingFunctors ++ [cb]
    queued := s.queued ++ [cb] }

def callQuit (s : EventLoop F ι) (t : Option ι) : EventLoop F ι := { s.setThread t .quit with quit := true }

def finish (s : EventLoop F ι) (t : Option ι) : EventLoop F ι :=
  let s' := s.setThread t .none
  match s.threads t with
  | .none => s'
  | .queueInLoop => if !isInLoopThread t || s.callingPendingFunctors then s'.wakeup else s'
  | .quit => if !isInLoopThread t then s'.wakeup else s'

end Threads

/-- The next step of `loop()`; that `poll` returns is an event of its own. -/
def stepLoop (s : EventLoop F ι) : EventLoop F ι :=
  match s.pc with
  | .outside => { s with pc := .test, quit := false }
  | .test => { s with pc := if s.quit then .outside else .polling }
  | .polling => s
  | .handling (.wakeup :: rest) => { s.handleRead with pc := .handling rest }
  | .handling (.other _ :: rest) => { s with pc := .handling rest }
  | .handling [] => { s with pc := .swapping, callingPendingFunctors := true }
  | .swapping => { s with pc := .running s.pendingFunctors, pendingFunctors := [] }
  | .running (f :: rest) => { s with pc := .running rest, executed := s.executed ++ [f] }
  | .running [] => { s with pc := .test, callingPendingFunctors := false }

/-- A functor counts as executed from the moment it is called, so what it does comes after. -/
inductive Event (F ι : Type)
  | queueInLoop (t : Option ι) (cb : F)
  | quit (t : Option ι)
  | finish (t : Option ι)
  | loop
  | poll (active : List Channel)

variable [DecidableEq ι]

def next (s : EventLoop F ι) : Event F ι → EventLoop F ι
  | .queueInLoop t cb => s.queueInLoop t cb
  | .quit t => s.callQuit t
  | .finish t => s.finish t
  | .loop => s.stepLoop
  | .poll active => { s with pc := .handling active }

/-- A thread makes one call at a time, and the loop thread only where it is called back.
`poll` reports the wakeup channel exactly if there is something to read; it may also return
with nothing, after ten seconds. -/
def ok (s : EventLoop F ι) : Event F ι → Prop
  | .queueInLoop t _ | .quit t => s.threads t = .none ∧ (t = none → s.pc.callsOut = true)
  | .finish t => s.threads t ≠ .none
  | .loop => s.pc ≠ .polling ∧ s.threads none = .none
  | .poll active => s.pc = .polling ∧ (.wakeup ∈ active ↔ 0 < s.wakeupFd)

end EventLoop

end CppBase.Muduo
