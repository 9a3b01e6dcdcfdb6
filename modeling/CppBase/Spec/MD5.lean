import CppBase.Lib.Bytes
import CppBase.Lib.Slice

/-! The class `MD5` of center_config, on a little-endian host where `unsigned int` has
32 bits. -/

namespace CppBase.CenterConfig

open CppBase.Lib

/-- `unsigned int[4]`, and the variables `a`, `b`, `c`, `d` that begin with its words. -/
structure Words where
  a : UInt32
  b : UInt32
  c : UInt32
  d : UInt32

/-- The members. `in` is the block that is being filled. -/
structure MD5 where
  buf : Words
  bits0 : UInt32
  bits1 : UInt32
  input : List UInt8
  length_input : input.length = 64

namespace MD5

section Transform

inductive Reg where
  | a | b | c | d
  deriving DecidableEq

def get (r : Words) : Reg → UInt32
  | .a => r.a
  | .b => r.b
  | .c => r.c
  | .d => r.d

def set (r : Words) (w : Reg) (v : UInt32) : Words :=
  match w with
  | .a => { r with a := v }
  | .b => { r with b := v }
  | .c => { r with c := v }
  | .d => { r with d := v }

inductive Fn where
  | f1 | f2 | f3 | f4
  deriving DecidableEq

def F1 (x y z : UInt32) : UInt32 := z ^^^ (x &&& (y ^^^ z))
def F2 (x y z : UInt32) : UInt32 := F1 z x y
def F3 (x y z : UInt32) : UInt32 := x ^^^ y ^^^ z
def F4 (x y z : UInt32) : UInt32 := y ^^^ (x ||| ~~~z)

def Fn.eval : Fn → UInt32 → UInt32 → UInt32 → UInt32
  | .f1 => F1
  | .f2 => F2
  | .f3 => F3
  | .f4 => F4

/-- `MD5STEP(f, w, x, y, z, sin[k] + d, s)` -/
structure Step where
  f : Fn
  w : Reg
  x : Reg
  y : Reg
  z : Reg
  k : ℕ
  d : UInt32
  s : UInt32
  deriving DecidableEq

def md5Step (sin : ℕ → UInt32) (r : Words) (t : Step) : Words :=
  let w := get r t.w + (t.f.eval (get r t.x) (get r t.y) (get r t.z) + sin t.k + t.d)
  let w := w <<< t.s ||| w >>> (32 - t.s)
  set r t.w (w + get r t.x)

def steps : List Step :=
  [⟨.f1, .a, .b, .c, .d, 0, 0xd76aa478, 7⟩, ⟨.f1, .d, .a, .b, .c, 1, 0xe8c7b756, 12⟩,
    ⟨.f1, .c, .d, .a, .b, 2, 0x242070db, 17⟩, ⟨.f1, .b, .c, .d, .a, 3, 0xc1bdceee, 22⟩,
    ⟨.f1, .a, .b, .c, .d, 4, 0xf57c0faf, 7⟩, ⟨.f1, .d, .a, .b, .c, 5, 0x4787c62a, 12⟩,
    ⟨.f1, .c, .d, .a, .b, 6, 0xa8304613, 17⟩, ⟨.f1, .b, .c, .d, .a, 7, 0xfd469501, 22⟩,
    ⟨.f1, .a, .b, .c, .d, 8, 0x698098d8, 7⟩, ⟨.f1, .d, .a, .b, .c, 9, 0x8b44f7af, 12⟩,
    ⟨.f1, .c, .d, .a, .b, 10, 0xffff5bb1, 17⟩, ⟨.f1, .b, .c, .d, .a, 11, 0x895cd7be, 22⟩,
    ⟨.f1, .a, .b, .c, .d, 12, 0x6b901122, 7⟩, ⟨.f1, .d, .a, .b, .c, 13, 0xfd987193, 12⟩,
    ⟨.f1, .c, .d, .a, .b, 14, 0xa679438e, 17⟩, ⟨.f1, .b, .c, .d, .a, 15, 0x49b40821, 22⟩,
    ⟨.f2, .a, .b, .c, .d, 1, 0xf61e2562, 5⟩, ⟨.f2, .d, .a, .b, .c, 6, 0xc040b340, 9⟩,
    ⟨.f2, .c, .d, .a, .b, 11, 0x265e5a51, 14⟩, ⟨.f2, .b, .c, .d, .a, 0, 0xe9b6c7aa, 20⟩,
    ⟨.f2, .a, .b, .c, .d, 5, 0xd62f105d, 5⟩, ⟨.f2, .d, .a, .b, .c, 10, 0x02441453, 9⟩,
    ⟨.f2, .c, .d, .a, .b, 15, 0xd8a1e681, 14⟩, ⟨.f2, .b, .c, .d, .a, 4, 0xe7d3fbc8, 20⟩,
    ⟨.f2, .a, .b, .c, .d, 9, 0x21e1cde6, 5⟩, ⟨.f2, .d, .a, .b, .c, 14, 0xc33707d6, 9⟩,
    ⟨.f2, .c, .d, .a, .b, 3, 0xf4d50d87, 14⟩, ⟨.f2, .b, .c, .d, .a, 8, 0x455a14ed, 20⟩,
    ⟨.f2, .a, .b, .c, .d, 13, 0xa9e3e905, 5⟩, ⟨.f2, .d, .a, .b, .c, 2, 0xfcefa3f8, 9⟩,
    ⟨.f2, .c, .d, .a, .b, 7, 0x676f02d9, 14⟩, ⟨.f2, .b, .c, .d, .a, 12, 0x8d2a4c8a, 20⟩,
    ⟨.f3, .a, .b, .c, .d, 5, 0xfffa3942, 4⟩, ⟨.f3, .d, .a, .b, .c, 8, 0x8771f681, 11⟩,
    ⟨.f3, .c, .d, .a, .b, 11, 0x6d9d6122, 16⟩, ⟨.f3, .b, .c, .d, .a, 14, 0xfde5380c, 23⟩,
    ⟨.f3, .a, .b, .c, .d, 1, 0xa4beea44, 4⟩, ⟨.f3, .d, .a, .b, .c, 4, 0x4bdecfa9, 11⟩,
    ⟨.f3, .c, .d, .a, .b, 7, 0xf6bb4b60, 16⟩, ⟨.f3, .b, .c, .d, .a, 10, 0xbebfbc70, 23⟩,
    ⟨.f3, .a, .b, .c, .d, 13, 0x289b7ec6, 4⟩, ⟨.f3, .d, .a, .b, .c, 0, 0xeaa127fa, 11⟩,
    ⟨.f3, .c, .d, .a, .b, 3, 0xd4ef3085, 16⟩, ⟨.f3, .b, .c, .d, .a, 6, 0x04881d05, 23⟩,
    ⟨.f3, .a, .b, .c, .d, 9, 0xd9d4d039, 4⟩, ⟨.f3, .d, .a, .b, .c, 12, 0xe6db99e5, 11⟩,
    ⟨.f3, .c, .d, .a, .b, 15, 0x1fa27cf8, 16⟩, ⟨.f3, .b, .c, .d, .a, 2, 0xc4ac5665, 23⟩,
    ⟨.f4, .a, .b, .c, .d, 0, 0xf4292244, 6⟩, ⟨.f4, .d, .a, .b, .c, 7, 0x432aff97, 10⟩,
    ⟨.f4, .c, .d, .a, .b, 14, 0xab9423a7, 15⟩, ⟨.f4, .b, .c, .d, .a, 5, 0xfc93a039, 21⟩,
    ⟨.f4, .a, .b, .c, .d, 12, 0x655b59c3, 6⟩, ⟨.f4, .d, .a, .b, .c, 3, 0x8f0ccc92, 10⟩,
    ⟨.f4, .c, .d, .a, .b, 10, 0xffeff47d, 15⟩, ⟨.f4, .b, .c, .d, .a, 1, 0x85845dd1, 21⟩,
    ⟨.f4, .a, .b, .c, .d, 8, 0x6fa87e4f, 6⟩, ⟨.f4, .d, .a, .b, .c, 15, 0xfe2ce6e0, 10⟩,
    ⟨.f4, .c, .d, .a, .b, 6, 0xa3014314, 15⟩, ⟨.f4, .b, .c, .d, .a, 13, 0x4e0811a1, 21⟩,
    ⟨.f4, .a, .b, .c, .d, 4, 0xf7537e82, 6⟩, ⟨.f4, .d, .a, .b, .c, 11, 0xbd3af235, 10⟩,
    ⟨.f4, .c, .d, .a, .b, 2, 0x2ad7d2bb, 15⟩, ⟨.f4, .b, .c, .d, .a, 9, 0xeb86d391, 21⟩]

def transform (str : Words) (sin : ℕ → UInt32) : Words :=
  let r := steps.foldl (md5Step sin) str
  ⟨str.a + r.a, str.b + r.b, str.c + r.c, str.d + r.d⟩

end Transform

section Memory

/-- `((unsigned int *) p)[k]` -/
def load (p : List UInt8) (k : ℕ) : UInt32 := UInt32.ofNat (ofLeBytes (slice p (4 * k) 4))

def store (w : UInt32) : List UInt8 := leBytes 4 w.toNat

theorem length_store (w : UInt32) : (store w).length = 4 := length_leBytes ..

/-- Each of `longs` words is made of its bytes and written over them. -/
def reverse : ℕ → List UInt8 → List UInt8
  | longs + 1, b0 :: b1 :: b2 :: b3 :: str =>
    let t := (b3.toUInt32 <<< 8 ||| b2.toUInt32) <<< 16 ||| (b1.toUInt32 <<< 8 ||| b0.toUInt32)
    store t ++ reverse longs str
  | _, str => str

theorem length_reverse (longs : ℕ) (str : List UInt8) : (reverse longs str).length = str.length := by
  fun_induction reverse longs str with
  | case1 longs b0 b1 b2 b3 str t ih =>
    rw [List.length_append, length_store, ih]
    exact Nat.add_comm ..
  | case2 => rfl

def reverseIn (s : MD5) (longs : ℕ) : MD5 :=
  { s with input := reverse longs s.input, length_input := by rw [length_reverse, s.length_input] }

/-- `memmove(in + p, data)` -/
def move (s : MD5) (p : ℕ) (data : List UInt8) (h : p + data.length ≤ 64) : MD5 :=
  { s with
    input := patch s.input p data
    length_input := by rw [length_patch (by rw [s.length_input]; exact h), s.length_input] }

/-- `memset(in + p, 0, n)` -/
def zero (s : MD5) (p n : ℕ) (h : p + n ≤ 64) : MD5 :=
  s.move p (List.replicate n 0) (by rwa [List.length_replicate])

def transformIn (s : MD5) : MD5 :=
  let s := s.reverseIn 16
  { s with buf := transform s.buf (load s.input) }

end Memory

section Room

variable {t len : UInt32} {p n : ℕ} {str : List UInt8}

theorem take_fits (h : p + n ≤ 64) : p + (str.take n).length ≤ 64 :=
  (Nat.add_le_add_left (List.length_take_le n str) p).trans h

/-- `(bits[0] >> 3) & 0x3f`, the bytes in the block, do not fill it. -/
theorem count_lt (b : UInt32) : ((b >>> 3) &&& 0x3f).toNat < 64 := by
  rw [UInt32.toNat_and]
  exact Nat.lt_of_le_of_lt Nat.and_le_right (by decide)

theorem toNat_room (ht : t.toNat < 64) : (64 - t).toNat = 64 - t.toNat :=
  UInt32.toNat_sub_of_le _ _ (UInt32.le_iff_toNat_le.mpr ht.le)

theorem rest_fits (ht : t.toNat < 64) : t.toNat + (64 - t).toNat ≤ 64 := by
  rw [toNat_room ht]
  omega

theorem short_fits (ht : t.toNat < 64) (h : len < 64 - t) : t.toNat + len.toNat ≤ 64 := by
  have hlt := UInt32.lt_iff_toNat_lt.mp h
  rw [toNat_room ht] at hlt
  omega

theorem below_block (h : ¬ len ≥ 64) : len.toNat < 64 :=
  Nat.not_le.mp fun hle => h (UInt32.le_iff_toNat_le.mpr hle)

/-- What is left of the block behind the first byte of the padding. -/
theorem toNat_padding (ht : t.toNat < 64) : (64 - 1 - t).toNat = 63 - t.toNat :=
  UInt32.toNat_sub_of_le _ _ (UInt32.le_iff_toNat_le.mpr (Nat.le_of_lt_succ ht))

theorem padding_fits (ht : t.toNat < 64) : t.toNat + 1 + (64 - 1 - t).toNat ≤ 64 := by
  rw [toNat_padding ht]
  omega

theorem toNat_padding_short (ht : t.toNat < 64) (h : ¬ 64 - 1 - t < 8) : (64 - 1 - t - 8).toNat = 55 - t.toNat := by
  rw [UInt32.lt_iff_toNat_lt, Nat.not_lt] at h
  rw [UInt32.toNat_sub_of_le _ _ (UInt32.le_iff_toNat_le.mpr h), toNat_padding ht]
  show 63 - t.toNat - 8 = _
  omega

theorem padding_short_fits (ht : t.toNat < 64) (h : ¬ 64 - 1 - t < 8) :
    t.toNat + 1 + (64 - 1 - t - 8).toNat ≤ 64 := by
  rw [toNat_padding_short ht h]
  omega

end Room

section Update

def init (s : MD5) : MD5 :=
  { s with buf := ⟨0x67452301, 0xefcdab89, 0x98badcfe, 0x10325476⟩, bits0 := 0, bits1 := 0 }

/-- The loop of `update` and what is behind it, in at most `fuel` rounds. -/
def updateLoop : ℕ → MD5 → List UInt8 → UInt32 → MD5
  | 0, s, _, _ => s
  | fuel + 1, s, str, len =>
    if h : len ≥ 64 then
      updateLoop fuel (s.move 0 (str.take 64) (take_fits (by decide))).transformIn (str.drop 64) (len - 64)
    else s.move 0 (str.take len.toNat) (take_fits (by rw [Nat.zero_add]; exact (below_block h).le))

/-- `update(str, len)`, where `str` are the bytes from the pointer on. -/
def update (s : MD5) (str : List UInt8) (len : UInt32) : MD5 :=
  let t := s.bits0
  let bits0 := t + len <<< 3
  let bits1 := if bits0 < t then s.bits1 + 1 else s.bits1
  let bits1 := bits1 + len >>> 29
  let s := { s with bits0, bits1 }
  have ht := count_lt t
  let t := (t >>> 3) &&& 0x3f
  if t ≠ 0 then
    if h : len < 64 - t then s.move t.toNat (str.take len.toNat) (take_fits (short_fits ht h))
    else
      let s := (s.move t.toNat (str.take (64 - t).toNat) (take_fits (rest_fits ht))).transformIn
      updateLoop (len.toNat / 64 + 1) s (str.drop (64 - t).toNat) (len - (64 - t))
  else updateLoop (len.toNat / 64 + 1) s str len

/-- `update(const string &)`; the size becomes an `unsigned int`. -/
def updateString (s : MD5) (str : List UInt8) : MD5 := s.update str (UInt32.ofNat str.length)

end Update

section Output

/-- `(unsigned char *) buf` -/
def bufBytes (buf : Words) : List UInt8 := store buf.a ++ store buf.b ++ store buf.c ++ store buf.d

def reverseBuf (buf : Words) : Words :=
  let p := reverse 4 (bufBytes buf)
  ⟨load p 0, load p 1, load p 2, load p 3⟩

/-- The end of `final`, where the length is put behind the 56 bytes of the last block. -/
def finish (s : MD5) : MD5 :=
  let s := s.reverseIn 14
  let s := s.move 56 (store s.bits0) (by rw [length_store]; decide)
  let s := s.move 60 (store s.bits1) (by rw [length_store])
  { s with buf := reverseBuf (transform s.buf (load s.input)) }

def final (s : MD5) : MD5 :=
  have hcount := count_lt s.bits0
  let count := (s.bits0 >>> 3) &&& 0x3f
  let s := s.move count.toNat [0x80] hcount
  if h : 64 - 1 - count < 8 then
    let s := (s.zero (count.toNat + 1) (64 - 1 - count).toNat (padding_fits hcount)).transformIn
    (s.zero 0 56 (by decide)).finish
  else (s.zero (count.toNat + 1) (64 - 1 - count - 8).toNat (padding_short_fits hcount h)).finish

def xChar (c : UInt8) : UInt8 := if c < 0x0a then 48 + c else 97 - 10 + c

def out (s : MD5) : List UInt8 × MD5 :=
  let s := s.final
  ((bufBytes s.buf).flatMap fun c : UInt8 => [xChar ((c &&& 0xf0) >>> 4), xChar (c &&& 0x0f)], s)

def hash (s : MD5) (sIn : List UInt8) : List UInt8 × MD5 := (s.init.updateString sIn).out

end Output

end MD5

end CppBase.CenterConfig
