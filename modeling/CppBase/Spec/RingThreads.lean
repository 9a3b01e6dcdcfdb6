import CppBase.Lib.Machine
import CppBase.Spec.RingBuffer

/-! One thread that writes a ring buffer and one that reads it, cut into single
accesses to the shared fields. `m_nSize` is never written, so its loads are not
steps of their own. Operands are loaded from left to right; one of the two
indices belongs to the thread itself, so the other order loads the same. -/

namespace CppBase.Ring

variable {V : Type}

/-- Where an evaluation of `getWritableSlotCount` stands: the load that comes
next, with the value that the expression still needs. -/
inductive Count
  | compareW
  | compareR (w : UInt32)
  | wrapR
  | wrapW (r : UInt32)
  | flatW
  | flatR (w : UInt32)
  deriving DecidableEq

/-- One load: either more are to come, or the count is known. -/
def Count.step (b : RingBuffer V) : Count → Count ⊕ UInt32
  | .compareW => .inl (.compareR b.wIndex)
  | .compareR w => .inl (if w < b.rIndex then .wrapR else .flatW)
  | .wrapR => .inl (.wrapW b.rIndex)
  | .wrapW r => .inr (r - b.wIndex - 1)
  | .flatW => .inl (.flatR b.wIndex)
  | .flatR w => .inr (b.size - w + b.rIndex)

/-- Where `i = (i < m_nSize) ? (i + 1) : 0` stands. -/
inductive Advance
  | compare
  | load
  | store (i : UInt32)
  deriving DecidableEq

/-- One load of the index `i` itself; the last step, the store, is the caller's. -/
def Advance.next (size i : UInt32) : Advance → Advance
  | .compare => if i < size then .load else .store 0
  | .load => .store (i + 1)
  | .store j => .store j

/-- Where the writing thread stands; `full` is about to return false. -/
inductive Producer (V : Type)
  | idle
  | counting (p : V) (c : Count)
  | full
  | slot (p : V)
  | store (p : V) (i : UInt32)
  | advance (p : V) (a : Advance)

inductive ReadCall
  | read
  | peek
  deriving DecidableEq

/-- Where the reading thread stands; `empty` is about to return false. -/
inductive Consumer (V : Type)
  | idle
  | counting (op : ReadCall) (c : Count)
  | empty (op : ReadCall)
  | slot (op : ReadCall)
  | load (op : ReadCall) (i : UInt32)
  | advance (v : V) (a : Advance)

/-- Both threads. A write counts as successful, and a read as done, from the
store of its index on: nothing shared is touched after it. -/
structure System (V : Type) where
  buffer : RingBuffer V
  producer : Producer V
  consumer : Consumer V
  accepted : List V
  returned : List V

inductive Event (V : Type)
  | callWrite (p : V)
  | producer
  | call (op : ReadCall)
  | consumer

namespace System

def init (size : UInt32) (slots : ℕ → V) : System V :=
  { buffer := .create size slots, producer := .idle, consumer := .idle, accepted := [], returned := [] }

def stepProducer (s : System V) : System V :=
  match s.producer with
  | .idle => s
  | .counting p c =>
    match c.step s.buffer with
    | .inl c' => { s with producer := .counting p c' }
    | .inr n => { s with producer := if 0 < n then .slot p else .full }
  | .full => { s with producer := .idle }
  | .slot p => { s with producer := .store p s.buffer.wIndex }
  | .store p i => { s with buffer := s.buffer.setSlot i p, producer := .advance p .compare }
  | .advance p (.store i) =>
    { s with buffer := { s.buffer with wIndex := i }, producer := .idle, accepted := s.accepted ++ [p] }
  | .advance p a => { s with producer := .advance p (a.next s.buffer.size s.buffer.wIndex) }

def stepConsumer (s : System V) : System V :=
  match s.consumer with
  | .idle => s
  | .counting op c =>
    match c.step s.buffer with
    | .inl c' => { s with consumer := .counting op c' }
    | .inr n => { s with consumer := if 0 < s.buffer.size - n then .slot op else .empty op }
  | .empty _ => { s with consumer := .idle }
  | .slot op => { s with consumer := .load op s.buffer.rIndex }
  | .load .peek _ => { s with consumer := .idle }
  | .load .read i => { s with consumer := .advance (s.buffer.slots i.toNat) .compare }
  | .advance v (.store i) =>
    { s with buffer := { s.buffer with rIndex := i }, consumer := .idle, returned := s.returned ++ [v] }
  | .advance v a => { s with consumer := .advance v (a.next s.buffer.size s.buffer.rIndex) }

def next (s : System V) : Event V → System V
  | .callWrite p => { s with producer := .counting p .compareW }
  | .producer => s.stepProducer
  | .call op => { s with consumer := .counting op .compareW }
  | .consumer => s.stepConsumer

def ok (s : System V) : Event V → Prop
  | .callWrite _ => s.producer = .idle
  | .producer => s.producer ≠ .idle
  | .call _ => s.consumer = .idle
  | .consumer => s.consumer ≠ .idle

end System

end CppBase.Ring
