import Mathlib.Data.Nat.Notation
import Mathlib.Logic.Function.Basic

/-! `u32toa`, `u64toa` and what `utility/strutil.h` builds on them. -/

namespace CppBase.Utility.StrUtil

section Buffer

structure Cursor where
  mem : ℕ → UInt8
  pos : ℕ

/-- `*buffer++ = c` -/
def Cursor.put (b : Cursor) (c : UInt8) : Cursor := ⟨Function.update b.mem b.pos c, b.pos + 1⟩

/-- `if (cond) *buffer++ = c` -/
def Cursor.putIf (b : Cursor) (cond : Bool) (c : UInt8) : Cursor := if cond then b.put c else b

end Buffer

section Digits

def cDigitsLut : List UInt8 :=
  [ 48, 48, 48, 49, 48, 50, 48, 51, 48, 52, 48, 53, 48, 54, 48, 55, 48, 56, 48, 57,
    49, 48, 49, 49, 49, 50, 49, 51, 49, 52, 49, 53, 49, 54, 49, 55, 49, 56, 49, 57,
    50, 48, 50, 49, 50, 50, 50, 51, 50, 52, 50, 53, 50, 54, 50, 55, 50, 56, 50, 57,
    51, 48, 51, 49, 51, 50, 51, 51, 51, 52, 51, 53, 51, 54, 51, 55, 51, 56, 51, 57,
    52, 48, 52, 49, 52, 50, 52, 51, 52, 52, 52, 53, 52, 54, 52, 55, 52, 56, 52, 57,
    53, 48, 53, 49, 53, 50, 53, 51, 53, 52, 53, 53, 53, 54, 53, 55, 53, 56, 53, 57,
    54, 48, 54, 49, 54, 50, 54, 51, 54, 52, 54, 53, 54, 54, 54, 55, 54, 56, 54, 57,
    55, 48, 55, 49, 55, 50, 55, 51, 55, 52, 55, 53, 55, 54, 55, 55, 55, 56, 55, 57,
    56, 48, 56, 49, 56, 50, 56, 51, 56, 52, 56, 53, 56, 54, 56, 55, 56, 56, 56, 57,
    57, 48, 57, 49, 57, 50, 57, 51, 57, 52, 57, 53, 57, 54, 57, 55, 57, 56, 57, 57]

def lut (i : UInt32) : UInt8 := cDigitsLut.getD i.toNat 0

def put2 (x : UInt32) (b : Cursor) : Cursor :=
  let i := x <<< 1
  (b.put (lut i)).put (lut (i + 1))

def put4 (x : UInt32) (b : Cursor) : Cursor :=
  let d1 := (x / 100) <<< 1
  let d2 := (x % 100) <<< 1
  (((b.put (lut d1)).put (lut (d1 + 1))).put (lut d2)).put (lut (d2 + 1))

def put4If (c1 c2 c3 c4 : Bool) (x : UInt32) (b : Cursor) : Cursor :=
  let d1 := (x / 100) <<< 1
  let d2 := (x % 100) <<< 1
  (((b.putIf c1 (lut d1)).putIf c2 (lut (d1 + 1))).putIf c3 (lut d2)).putIf c4 (lut (d2 + 1))

/-- `static_cast<char>('0' + static_cast<char>(a))` -/
def putDigit (a : UInt32) (b : Cursor) : Cursor := b.put (48 + a.toUInt8)

end Digits

section Unsigned

def u32toa (value : UInt32) (buffer : Cursor) : Cursor :=
  if value < 10000 then
    put4If (value ≥ 1000) (value ≥ 100) (value ≥ 10) true value buffer
  else if value < 100000000 then
    -- value = bbbbcccc
    let b := value / 10000
    let c := value % 10000
    put4 c (put4If (value ≥ 10000000) (value ≥ 1000000) (value ≥ 100000) true b buffer)
  else
    -- value = aabbbbcccc in decimal
    let a := value / 100000000
    let value := value % 100000000
    let buffer := if a ≥ 10 then put2 a buffer else putDigit a buffer
    let b := value / 10000
    let c := value % 10000
    put4 c (put4 b buffer)

def kTen8 : UInt64 := 100000000
def kTen9 : UInt64 := kTen8 * 10
def kTen10 : UInt64 := kTen8 * 100
def kTen11 : UInt64 := kTen8 * 1000
def kTen12 : UInt64 := kTen8 * 10000
def kTen13 : UInt64 := kTen8 * 100000
def kTen14 : UInt64 := kTen8 * 1000000
def kTen15 : UInt64 := kTen8 * 10000000
def kTen16 : UInt64 := kTen8 * kTen8

def u64toa (value : UInt64) (buffer : Cursor) : Cursor :=
  if value < kTen8 then
    let v := value.toUInt32
    if v < 10000 then
      put4If (v ≥ 1000) (v ≥ 100) (v ≥ 10) true v buffer
    else
      -- value = bbbbcccc
      let b := v / 10000
      let c := v % 10000
      put4 c (put4If (value ≥ 10000000) (value ≥ 1000000) (value ≥ 100000) true b buffer)
  else if value < kTen16 then
    let v0 := (value / kTen8).toUInt32
    let v1 := (value % kTen8).toUInt32
    let b0 := v0 / 10000
    let c0 := v0 % 10000
    let b1 := v1 / 10000
    let c1 := v1 % 10000
    let buffer := put4If (value ≥ kTen15) (value ≥ kTen14) (value ≥ kTen13) (value ≥ kTen12) b0 buffer
    let buffer := put4If (value ≥ kTen11) (value ≥ kTen10) (value ≥ kTen9) (value ≥ kTen8) c0 buffer
    put4 c1 (put4 b1 buffer)
  else
    let a := (value / kTen16).toUInt32
    let value := value % kTen16
    let buffer :=
      if a < 10 then putDigit a buffer
      else if a < 100 then put2 a buffer
      else if a < 1000 then put2 (a % 100) (putDigit (a / 100) buffer)
      else put2 (a % 100) (put2 (a / 100) buffer)
    let v0 := (value / kTen8).toUInt32
    let v1 := (value % kTen8).toUInt32
    let b0 := v0 / 10000
    let c0 := v0 % 10000
    let b1 := v1 / 10000
    let c1 := v1 % 10000
    put4 c1 (put4 b1 (put4 c0 (put4 b0 buffer)))

end Unsigned

section Signed

def i32toa (value : Int32) (buffer : Cursor) : Cursor :=
  let u := value.toUInt32
  if value < 0 then u32toa (~~~u + 1) (buffer.put 45) else u32toa u buffer

def i64toa (value : Int64) (buffer : Cursor) : Cursor :=
  let u := value.toUInt64
  if value < 0 then u64toa (~~~u + 1) (buffer.put 45) else u64toa u buffer

end Signed

section Strings

/-- The body of the `to_string`: `buf` holds `garbage`, what `write` leaves in it is
ended with `'\0'`, and the characters before that are the result. -/
def toStringWith (write : Cursor → Cursor) (garbage : ℕ → UInt8) : List UInt8 :=
  ((List.range 32).map ((write ⟨garbage, 0⟩).put 0).mem).takeWhile (· ≠ 0)

def toStringChar (n : Int8) : (ℕ → UInt8) → List UInt8 := toStringWith (u32toa n.toUInt8.toUInt32)
def toStringUChar (n : UInt8) : (ℕ → UInt8) → List UInt8 := toStringWith (u32toa n.toUInt32)
def toStringU32 (n : UInt32) : (ℕ → UInt8) → List UInt8 := toStringWith (u32toa n)
def toStringI32 (n : Int32) : (ℕ → UInt8) → List UInt8 := toStringWith (i32toa n)
def toStringU64 (n : UInt64) : (ℕ → UInt8) → List UInt8 := toStringWith (u64toa n)
def toStringI64 (n : Int64) : (ℕ → UInt8) → List UInt8 := toStringWith (i64toa n)

end Strings

end CppBase.Utility.StrUtil
