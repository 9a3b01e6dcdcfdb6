import Mathlib.Algebra.Group.Int.Defs
import Mathlib.Algebra.Group.Nat.Defs
import Mathlib.Data.Int.Order.Basic
import CppBase.Lib.Fallible
import CppBase.Lib.Slice

/-! `mediaproc_lib/core/AVIOMemory.cpp`: the callbacks through which FFmpeg reads,
writes and seeks in memory. An `int` position is mixed with the `size_t` of a
`std::string` and with 64-bit offsets, so the conversions are written out. -/

namespace CppBase.Mediaproc

open CppBase.Lib

section Integers

def toInt32 (x : ℤ) : ℤ := x.bmod (2 ^ 32)

def toInt64 (x : ℤ) : ℤ := x.bmod (2 ^ 64)

def toSizeT (x : ℤ) : ℕ := (x % (2 ^ 64 : ℕ)).toNat

end Integers

def seekSet : ℤ := 0

def seekCur : ℤ := 1

def seekEnd : ℤ := 2

def avseekSize : ℤ := 0x10000

def averrorEof : ℤ := -0x20464f45

/-- What must not happen: a copy from outside the buffer, and `std::out_of_range`. -/
inductive Fault where
  | outOfBounds
  | outOfRange
  deriving DecidableEq, Repr

section Memory

def memcpy (src : List UInt8) (start n : ℤ) : Except Fault (List UInt8) :=
  if 0 ≤ start ∧ 0 ≤ n ∧ start + n ≤ src.length then .ok (slice src start.toNat n.toNat) else .error .outOfBounds

def erase (s : List UInt8) (pos : ℕ) : Except Fault (List UInt8) :=
  if pos ≤ s.length then .ok (s.take pos) else .error .outOfRange

def replace (s : List UInt8) (pos n : ℕ) (buf : List UInt8) : Except Fault (List UInt8) :=
  if pos ≤ s.length then .ok (s.take pos ++ buf ++ s.drop (pos + n)) else .error .outOfRange

end Memory

inductive Answer where
  | nothing
  | count (ret : ℤ) (bytes : List UInt8)
  | offset (ret : ℤ)
  deriving DecidableEq, Repr

section Shared

/-- Both functions `readString` behind the computation of `left`; the number is the new position. -/
def readAt (buffer : List UInt8) (pos left size : ℤ) : Except Fault (Answer × ℤ) :=
  if left = 0 then .ok (.count averrorEof [], pos)
  else
    let bytesRead := min left size
    memcpy buffer pos bytesRead >>= fun bytes => .ok (.count bytesRead bytes, toInt32 (pos + bytesRead))

/-- `new_pos`, where `whence` names a place to count from. -/
def newPos (pos size offset whence : ℤ) : Option ℤ :=
  if whence = seekSet then some offset
  else if whence = seekCur then some (toInt64 (pos + offset))
  else if whence = seekEnd then some (toInt64 (size + offset))
  else none

/-- Both functions `seekString`. They differ in `store`, what becomes of `new_pos` in `pos`. -/
def seekAt (pos size offset whence : ℤ) (store : ℤ → ℤ) : Answer × ℤ :=
  if whence = avseekSize then (.offset size, pos)
  else
    match newPos pos size offset whence with
    | none => (.offset (-1), pos)
    | some new => if new > size ∨ new < 0 then (.offset (-1), pos) else (.offset new, store new)

end Shared

/-- `AVIOReadMemory`. `buffer` is the memory at `input`. -/
structure AVIOReadMemory where
  buffer : List UInt8
  total : ℤ
  pos : ℤ
  deriving DecidableEq, Repr

namespace AVIOReadMemory

def create (input : List UInt8) (size : ℤ) : AVIOReadMemory := ⟨input, size, 0⟩

def readString (self : AVIOReadMemory) (size : ℤ) : Except Fault (Answer × AVIOReadMemory) :=
  readAt self.buffer self.pos (toInt32 (self.total - self.pos)) size >>= fun r => .ok (r.1, { self with pos := r.2 })

def seekString (self : AVIOReadMemory) (offset whence : ℤ) : Answer × AVIOReadMemory :=
  let r := seekAt self.pos self.total offset whence fun new => min (toInt32 new) self.total
  (r.1, { self with pos := r.2 })

end AVIOReadMemory

structure AVIOMemory where
  buffer : List UInt8
  pos : ℤ
  deriving DecidableEq, Repr

namespace AVIOMemory

def create : AVIOMemory := ⟨[], 0⟩

def reset (input : List UInt8) : AVIOMemory := ⟨input, 0⟩

/-- `int left = self->buffer.size() - self->pos` -/
def left (self : AVIOMemory) : ℤ := toInt32 (toSizeT (self.buffer.length - self.pos))

def readString (self : AVIOMemory) (size : ℤ) : Except Fault (Answer × AVIOMemory) :=
  readAt self.buffer self.pos self.left size >>= fun r => .ok (r.1, { self with pos := r.2 })

def writeString (self : AVIOMemory) (buf : List UInt8) : Except Fault (Answer × AVIOMemory) :=
  let size : ℤ := buf.length
  let buffer : Except Fault (List UInt8) :=
    if self.left ≤ size then
      (if self.left ≠ 0 then erase self.buffer (toSizeT self.pos) else .ok self.buffer) >>= fun kept =>
        .ok (kept ++ buf)
    else replace self.buffer (toSizeT self.pos) (toSizeT size) buf
  buffer >>= fun bytes => .ok (.count size [], ⟨bytes, toInt32 (self.pos + size)⟩)

def seekString (self : AVIOMemory) (offset whence : ℤ) : Answer × AVIOMemory :=
  let bufferSize := toInt64 self.buffer.length
  let r := seekAt self.pos bufferSize offset whence fun new => toInt32 (min new bufferSize)
  (r.1, { self with pos := r.2 })

end AVIOMemory

end CppBase.Mediaproc
