import CppBase.Lib.Absorb
import CppBase.Lib.Bytes
import CppBase.Lib.Slice
import Mathlib.Analysis.SpecialFunctions.Trigonometric.Basic

/-! The MD5 message digest as RFC 1321 defines it. -/

namespace CppBase.Lib.Md5

/-- The four words that are computed, section 3.3. -/
@[ext]
structure State where
  a : UInt32
  b : UInt32
  c : UInt32
  d : UInt32

def initial : State := ⟨0x67452301, 0xefcdab89, 0x98badcfe, 0x10325476⟩

section Rounds

/-- The table of section 3.4: `T[i]` is the integer part of `4294967296` times `abs(sin(i))`. -/
noncomputable def T (i : ℕ) : UInt32 := UInt32.ofNat ⌊((4294967296 : ℕ) : ℝ) * |Real.sin i|⌋₊

def F (x y z : UInt32) : UInt32 := (x &&& y) ||| (~~~x &&& z)
def G (x y z : UInt32) : UInt32 := (x &&& z) ||| (y &&& ~~~z)
def H (x y z : UInt32) : UInt32 := x ^^^ y ^^^ z
def I (x y z : UInt32) : UInt32 := y ^^^ (x ||| ~~~z)

def rotateLeft (x s : UInt32) : UInt32 := (x <<< s) ||| (x >>> (32 - s))

/-- The function of operation `i`, counted from zero. -/
def function (i : ℕ) : UInt32 → UInt32 → UInt32 → UInt32 :=
  if i < 16 then F else if i < 32 then G else if i < 48 then H else I

def index (i : ℕ) : ℕ :=
  if i < 16 then i else if i < 32 then (5 * i + 1) % 16 else if i < 48 then (3 * i + 5) % 16 else 7 * i % 16

def shift (i : ℕ) : UInt32 :=
  if i < 16 then [7, 12, 17, 22].getD (i % 4) 0
  else if i < 32 then [5, 9, 14, 20].getD (i % 4) 0
  else if i < 48 then [4, 11, 16, 23].getD (i % 4) 0
  else [6, 10, 15, 21].getD (i % 4) 0

/-- `a = b + ((a + f(b,c,d) + X[k] + T[i]) <<< s)`; the registers then take each other's
places, as in `[ABCD]`, `[DABC]`, `[CDAB]`, `[BCDA]`. -/
noncomputable def operation (X : ℕ → UInt32) (q : State) (i : ℕ) : State :=
  ⟨q.d, q.b + rotateLeft (q.a + function i q.b q.c q.d + X (index i) + T (i + 1)) (shift i), q.b, q.c⟩

noncomputable def compress (q : State) (X : ℕ → UInt32) : State :=
  let r := (List.range 64).foldl (operation X) q
  ⟨q.a + r.a, q.b + r.b, q.c + r.c, q.d + r.d⟩

end Rounds

section Message

/-- The word `k` of a block, low-order byte first. -/
def word (block : List UInt8) (k : ℕ) : UInt32 := UInt32.ofNat (ofLeBytes (slice block (4 * k) 4))

/-- Sections 3.1 and 3.2: a single bit, zeros up to 56 bytes modulo 64, and the low 64 bits
of the length in bits. -/
def padding (length : ℕ) : List UInt8 :=
  0x80 :: List.replicate ((119 - length % 64) % 64) 0 ++ leBytes 8 (8 * length)

noncomputable def process (q : State) (block : List UInt8) : State := compress q (word block)

def output (q : State) : List UInt8 :=
  leBytes 4 q.a.toNat ++ leBytes 4 q.b.toNat ++ leBytes 4 q.c.toNat ++ leBytes 4 q.d.toNat

end Message

section Hexadecimal

def hexDigits : List UInt8 := [48, 49, 50, 51, 52, 53, 54, 55, 56, 57, 97, 98, 99, 100, 101, 102]

def hex (l : List UInt8) : List UInt8 :=
  l.flatMap fun c => [hexDigits.getD (c.toNat / 16) 0, hexDigits.getD (c.toNat % 16) 0]

end Hexadecimal

end CppBase.Lib.Md5
