import Mathlib.Data.Int.Notation
import Mathlib.Data.Nat.Notation

/-! The buffer of metrics of `async_cpp/include/MetricsEx.cpp`. Both functions hold its
mutex from end to end. -/

namespace CppBase.AsyncCpp.MetricsBuffer

inductive UriTag where
  | server
  | client
  | inner
  deriving DecidableEq

structure Message where
  uriTag : UriTag
  uri : String
  duration : ℤ
  code : ℤ
  deriving DecidableEq

/-- `reported` are the messages handed to `MetricsExSetDurationAndStatus`, in order. -/
structure Buffer where
  messages : List Message := []
  reported : List Message := []
  deriving DecidableEq

/-- The loop of `flushMsg`, from `i` and `doCount` on. A round takes a message out, so
there are at most as many as messages. -/
def flushLoop : ℕ → ℕ → ℕ → Buffer → ℕ × Buffer
  | fuel + 1, i, doCount, b =>
    if i < b.messages.length ∧ doCount < 10000 then
      match b.messages with
      | msg :: rest => flushLoop fuel (i + 1) (doCount + 1) ⟨rest, b.reported ++ [msg]⟩
      | [] => (doCount, b)
    else (doCount, b)
  | 0, _, doCount, b => (doCount, b)

def flushMsg (b : Buffer) : ℕ × Buffer := flushLoop b.messages.length 0 0 b

def pushMsg (b : Buffer) (msg : Message) : Bool × Buffer :=
  if b.messages.length > 100000 then (false, b) else (true, { b with messages := b.messages ++ [msg] })

inductive Call where
  | push (msg : Message)
  | flush

def step (b : Buffer) : Call → Buffer
  | .push msg => (pushMsg b msg).2
  | .flush => (flushMsg b).2

end CppBase.AsyncCpp.MetricsBuffer
