import CppBase.Lib.Machine
import CppBase.Spec.RedisManager

/-! The request queue with both of its writers: an outside thread calls `send`,
and the Redis thread calls it too, from `LoadScriptMgr::load`, before `timer_ms`
reads the queue. A `write` is cut into the test, the store into the slot and the
advance of the index, a `read` likewise. -/

namespace CppBase.RequestQueue

open CppBase.Lib CppBase.Ring CppBase.RedisTool

variable {V : Type}

inductive Write (V : Type)
  | test (p : V)
  | store (p : V)
  | advance (p : V)
  deriving DecidableEq

/-- Past its test, and not done. -/
def Write.inside : Write V → Bool
  | .test _ => false
  | _ => true

/-- One part of a `write`: the buffer, what is left of the call, and the item
that the call has put into the queue when it returns true. -/
def Write.step (b : RingBuffer V) : Write V → RingBuffer V × Option (Write V) × List V
  | .test p => (b, if b.isWritable then some (.store p) else none, [])
  | .store p => (b.setSlot b.wIndex p, some (.advance p), [])
  | .advance p => (b.advanceW, none, [p])

/-- The Redis thread. In `load`, `todo` is still to be sent and `drain` tells
`timer_ms`, which reads the queue afterwards, from the connect callback. -/
inductive RedisThread (V : Type)
  | idle
  | load (todo : List V) (drain : Bool)
  | write (w : Write V) (todo : List V) (drain : Bool)
  | test
  | read
  | advance (v : V)
  deriving DecidableEq

/-- Back in `load` once a `write` has returned. -/
def RedisThread.resume (todo : List V) (drain : Bool) : Option (Write V) → RedisThread V
  | some w => .write w todo drain
  | none => .load todo drain

def RedisThread.insideWrite : RedisThread V → Bool
  | .write w _ _ => w.inside
  | _ => false

/-- `accepted` are the items of the writes that returned true, `returned` those of the reads. -/
structure Threads (V : Type) where
  buffer : RingBuffer V
  external : Option (Write V)
  redis : RedisThread V
  accepted : List V
  returned : List V

inductive Event (V : Type)
  | send (p : V)
  | external
  | tick (todo : List V) (drain : Bool)
  | redis

namespace Threads

def init (slots : ℕ → V) : Threads V :=
  { buffer := .create maxRingBufferSlotCount slots, external := none, redis := .idle, accepted := [], returned := [] }

def stepExternal (s : Threads V) : Threads V :=
  match s.external with
  | none => s
  | some w =>
    { s with
      buffer := (w.step s.buffer).1
      external := (w.step s.buffer).2.1
      accepted := s.accepted ++ (w.step s.buffer).2.2 }

def stepRedis (s : Threads V) : Threads V :=
  match s.redis with
  | .idle => s
  | .load [] drain => { s with redis := if drain then .test else .idle }
  | .load (p :: todo) drain => { s with redis := .write (.test p) todo drain }
  | .write w todo drain =>
    { s with
      buffer := (w.step s.buffer).1
      redis := .resume todo drain (w.step s.buffer).2.1
      accepted := s.accepted ++ (w.step s.buffer).2.2 }
  | .test => { s with redis := if s.buffer.isReadable then .read else .idle }
  | .read => { s with redis := .advance (s.buffer.slots s.buffer.rIndex.toNat) }
  | .advance v => { s with buffer := s.buffer.advanceR, redis := .test, returned := s.returned ++ [v] }

def next (s : Threads V) : Event V → Threads V
  | .send p => { s with external := some (.test p) }
  | .external => s.stepExternal
  | .tick todo drain => { s with redis := .load todo drain }
  | .redis => s.stepRedis

/-- Each thread makes one call at a time. -/
def ok (s : Threads V) : Event V → Prop
  | .send _ => s.external = none
  | .external => s.external ≠ none
  | .tick _ _ => s.redis = .idle
  | .redis => s.redis ≠ .idle

end Threads

end CppBase.RequestQueue
