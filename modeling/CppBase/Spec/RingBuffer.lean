import Mathlib.Logic.Function.Basic
import CppBase.Lib.Circular

/-! The lock-free queue of `core/RingBuffer.h`: an array of `m_nSize + 1` slots
and two indices into it. One slot always stays free. -/

namespace CppBase.Ring

open CppBase.Lib

structure RingBuffer (V : Type) where
  rIndex : UInt32
  wIndex : UInt32
  size : UInt32
  slots : ℕ → V

namespace RingBuffer

variable {V : Type}

/-- The constructor and `initialize`; `new` leaves the slots as they happen to be. -/
def create (size : UInt32) (slots : ℕ → V) : RingBuffer V := ⟨0, 0, size, slots⟩

/-- Unsigned arithmetic, as in the source: it wraps around at `2 ^ 32`. -/
def getWritableSlotCount (b : RingBuffer V) : UInt32 :=
  if b.wIndex < b.rIndex then b.rIndex - b.wIndex - 1 else b.size - b.wIndex + b.rIndex

def getReadableSlotCount (b : RingBuffer V) : UInt32 := b.size - b.getWritableSlotCount

def isWritable (b : RingBuffer V) : Bool := 0 < b.getWritableSlotCount

def isReadable (b : RingBuffer V) : Bool := 0 < b.getReadableSlotCount

/-- The index after `i`: `(i < m_nSize) ? (i + 1) : 0`. -/
def succIndex (b : RingBuffer V) (i : UInt32) : UInt32 := if i < b.size then i + 1 else 0

def setSlot (b : RingBuffer V) (i : UInt32) (p : V) : RingBuffer V :=
  { b with slots := Function.update b.slots i.toNat p }

def advanceW (b : RingBuffer V) : RingBuffer V := { b with wIndex := b.succIndex b.wIndex }

def advanceR (b : RingBuffer V) : RingBuffer V := { b with rIndex := b.succIndex b.rIndex }

def write (b : RingBuffer V) (p : V) : Bool × RingBuffer V :=
  if b.isWritable then (true, (b.setSlot b.wIndex p).advanceW) else (false, b)

/-- What `*p` is set to, `none` where `peek` returns false. -/
def peek (b : RingBuffer V) : Option V := if b.isReadable then some (b.slots b.rIndex.toNat) else none

/-- What `*p` is set to, `none` where `read` returns false. -/
def read (b : RingBuffer V) : Option V × RingBuffer V :=
  if b.isReadable then (some (b.slots b.rIndex.toNat), b.advanceR) else (none, b)

def count (b : RingBuffer V) : ℕ :=
  if b.rIndex ≤ b.wIndex then b.wIndex.toNat - b.rIndex.toNat
  else b.wIndex.toNat + (b.size.toNat + 1) - b.rIndex.toNat

/-- The queued items, oldest first. -/
def queued (b : RingBuffer V) : List V := window b.slots (b.size.toNat + 1) b.rIndex.toNat b.count

end RingBuffer

inductive Call (V : Type)
  | write (p : V)
  | read
  | peek

inductive Answer (V : Type)
  | wrote (ok : Bool)
  | got (p : Option V)
  deriving DecidableEq

variable {V : Type}

def RingBuffer.call (b : RingBuffer V) : Call V → Answer V × RingBuffer V
  | .write p => (.wrote (b.write p).1, (b.write p).2)
  | .read => (.got b.read.1, b.read.2)
  | .peek => (.got b.peek, b)

/-- The same calls on a first-in first-out queue of at most `cap` items. -/
def queueCall (cap : ℕ) (q : List V) : Call V → Answer V × List V
  | .write p => (.wrote (offer cap q p).1, (offer cap q p).2)
  | .read => (.got (poll q).1, (poll q).2)
  | .peek => (.got q.head?, q)

end CppBase.Ring
