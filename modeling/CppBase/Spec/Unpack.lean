import CppBase.Spec.Pack

/-! `Unpack` of `packet.h`: a cursor over bytes it does not own. -/

namespace CppBase.Packet

open CppBase.Lib

/-- How reading can end early: with an exception, or with an access outside the
input, which the code never checks for. -/
inductive Fault
  | unpackError (what : String)
  | outOfBounds
  deriving DecidableEq, Repr

/-- `m_data` points into `mem`, the input. `trail` is not in the code: it records
every value the pair `m_data`, `m_size` takes. -/
structure Unpack where
  mem : List UInt8
  m_data : ℕ
  m_size : ℕ
  trail : List (ℕ × ℕ)

def Unpack.ofBytes (data : List UInt8) : Unpack := ⟨data, 0, data.length, [(0, data.length)]⟩

abbrev UnpackM := Prog Fault Unpack

/-- `a - b` in `size_t`, which wraps around. -/
def sizeSub (a b : ℕ) : ℕ := if b ≤ a then a - b else a + 2 ^ 64 - b

def Unpack.skip (s : Unpack) (k : ℕ) : Unpack :=
  { s with m_data := s.m_data + k, m_size := sizeSub s.m_size k,
           trail := (s.m_data + k, sizeSub s.m_size k) :: s.trail }

/-- `m_data += k; m_size -= k;` -/
def advance (k : ℕ) : UnpackM Unit := modifies (·.skip k)

def load (p k : ℕ) : UnpackM (List UInt8) := do
  let mem ← gets Unpack.mem
  if p + k ≤ mem.length then return (mem.drop p).take k
  else fails .outOfBounds

/-- The common part of `pop_uint8` to `pop_uint64`. -/
def popUint (width : ℕ) (what : String) : UnpackM ℕ := do
  if (← gets Unpack.m_size) < width then fails (.unpackError what)
  else
    let bytes ← load (← gets Unpack.m_data) width
    advance width
    return ofLeBytes bytes

def popUint8 : UnpackM UInt8 := do return UInt8.ofNat (← popUint 1 "pop_uint8: not enough data")
def popUint16 : UnpackM UInt16 := do return UInt16.ofNat (← popUint 2 "pop_uint16: not enough data")
def popUint32 : UnpackM UInt32 := do return UInt32.ofNat (← popUint 4 "pop_uint32: not enough data")
def popUint64 : UnpackM UInt64 := do return UInt64.ofNat (← popUint 8 "pop_uint64: not enough data")

def popFetchPtr (k : ℕ) : UnpackM ℕ := do
  if (← gets Unpack.m_size) < k then fails (.unpackError "pop_fetch_ptr: not enough data")
  else
    let p ← gets Unpack.m_data
    advance k
    return p

structure Varstr where
  m_data : ℕ
  m_size : ℕ

def popVarstrPtr : UnpackM Varstr := do
  let size ← popUint16
  let data ← popFetchPtr size.toNat
  return ⟨data, size.toNat⟩

/-- The string is copied out of the input after the cursor has moved past it. -/
def popVarstr : UnpackM (List UInt8) := do
  let vs ← popVarstrPtr
  load vs.m_data vs.m_size

/-- `header(h)`; `none` is a return of `false`. -/
def header : UnpackM (Option Header) := do
  if (← gets Unpack.m_size) < headerSize then return none
  else
    let bytes ← load (← gets Unpack.m_data) headerSize
    return some (Header.parseRawHeader bytes)

def popHeader : UnpackM Unit := do
  if headerSize ≤ (← gets Unpack.m_size) then advance headerSize

end CppBase.Packet
