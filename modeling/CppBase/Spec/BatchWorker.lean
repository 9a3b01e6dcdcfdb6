import CppBase.Lib.Fallible
import Mathlib.Algebra.Group.Int.Defs

/-! `cpp-examples/batchWork/BatchWorker.cpp`: threads that take requests off a queue in batches. A
locked block is one step and so is each `set_value`; the steps of the threads come in any
order, with any readings of the clock. A promise is known by the number of its request. -/

namespace CppBase

open CppBase.Lib

namespace BatchWorker

structure BatchRequest where
  number : ℕ
  input : List Int32
  deriving DecidableEq

/-- A thread in `work`, behind its locked block: the requests and the scores not yet handed out. -/
inductive Thread
  | idle
  | answering (reqs : List BatchRequest) (scorelist : List (List Int32))

inductive Fault
  | promiseAlreadySatisfied
  | outOfRange
  deriving DecidableEq

end BatchWorker

open BatchWorker

/-- `inputs` and `taken` record what was added, and the order in which it was taken off the queue. -/
structure BatchWorker (ι : Type) where
  batch : Int32
  waitMs : Int32
  queue : List BatchRequest := []
  lastTime : ℤ := 0
  result : ℕ → Option (List Int32) := fun _ => none
  thread : ι → Thread := fun _ => .idle
  inputs : List (List Int32) := []
  taken : List ℕ := []

namespace BatchWorker

variable {ι : Type}

def fakeResult (input : List (List Int32)) : List (List Int32) := input.map fun it => it.map (· * 2)

def add (s : BatchWorker ι) (img : List Int32) : BatchWorker ι :=
  { s with queue := s.queue ++ [⟨s.inputs.length, img⟩], inputs := s.inputs ++ [img] }

variable [DecidableEq ι]

/-- `work` up to the first `set_value`. The size is unsigned, and so `batch` is compared as
unsigned; the loop behind counts in `int`. -/
def takeBatch (s : BatchWorker ι) (t : ι) (now : ℤ) : BatchWorker ι :=
  if s.queue.length < s.batch.toInt % 2 ^ 64 ∧ now < s.lastTime + s.waitMs.toInt then s
  else
    let reqs := s.queue.take s.batch.toNatClampNeg
    { s with
      lastTime := now
      queue := s.queue.drop s.batch.toNatClampNeg
      taken := s.taken ++ reqs.map (·.number)
      thread := if reqs = [] then s.thread
        else Function.update s.thread t (.answering reqs (fakeResult (reqs.map (·.input)))) }

/-- The next round of the loop over `reqs`; behind the last one `work` returns. -/
def setValue (s : BatchWorker ι) (t : ι) : BatchRequest → List BatchRequest → List (List Int32) →
    Except Fault (BatchWorker ι)
  | _, _, [] => .error .outOfRange
  | r, reqs, score :: scorelist =>
    match s.result r.number with
    | some _ => .error .promiseAlreadySatisfied
    | none =>
      .ok { s with
        result := Function.update s.result r.number (some score)
        thread := Function.update s.thread t (if reqs = [] then .idle else .answering reqs scorelist) }

inductive Event (ι : Type)
  | add (img : List Int32)
  | takeBatch (t : ι) (now : ℤ)
  | setValue (t : ι)

/-- An event that the thread is not ready for does nothing. -/
def step (s : BatchWorker ι) : Event ι → Except Fault (BatchWorker ι)
  | .add img => .ok (s.add img)
  | .takeBatch t now =>
    match s.thread t with
    | .idle => .ok (s.takeBatch t now)
    | .answering _ _ => .ok s
  | .setValue t =>
    match s.thread t with
    | .answering (r :: reqs) scorelist => s.setValue t r reqs scorelist
    | _ => .ok s

end BatchWorker

end CppBase
