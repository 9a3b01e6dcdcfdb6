import Mathlib.Algebra.Group.Nat.Defs
import Mathlib.Data.List.Basic
import Mathlib.Logic.Function.Basic

/-! `utility/url_code.cpp`: percent encoding and base 64. A `std::string` is its
bytes. `int` has 32 bits and `char` is signed; `>>` on an `int` is arithmetic.
Lengths stay below the range of the integers that count them. -/

namespace CppBase.Utility.UrlCodec

def ascii (s : String) : List UInt8 := s.toList.map fun c => UInt8.ofNat c.toNat

def base64Chars : List UInt8 := ascii "ABCDEFGHIJKLMNOPQRSTUVWXYZabcdefghijklmnopqrstuvwxyz0123456789+/"

def urlsafeBase64Chars : List UInt8 := ascii "ABCDEFGHIJKLMNOPQRSTUVWXYZabcdefghijklmnopqrstuvwxyz0123456789-_"

section Characters

/-- `ctype.h` in the C locale. -/
def isdigit (c : UInt8) : Bool := 48 ≤ c && c ≤ 57

def isalnum (c : UInt8) : Bool := isdigit c || (65 ≤ c && c ≤ 90) || (97 ≤ c && c ≤ 122)

def ofChar (b : UInt8) : BitVec 32 := b.toBitVec.signExtend 32

def ofUChar (b : UInt8) : BitVec 32 := b.toBitVec.setWidth 32

def toByte (x : BitVec 32) : UInt8 := ⟨x.setWidth 8⟩

end Characters

section Percent

/-- A `const char *` with what stands before its terminator. -/
structure CString where
  bytes : List UInt8
  noNul : 0 ∉ bytes

/-- `sIn[k]`; `beyond` is the memory behind the terminator. -/
def CString.at (s : CString) (beyond : ℕ → UInt8) (k : ℕ) : UInt8 :=
  if k < s.bytes.length then s.bytes.getD k 0 else if k = s.bytes.length then 0 else beyond k

def toHex (x : UInt8) : UInt8 := if x > 9 then x - 10 + 65 else x + 48

def fromHex (x : UInt8) : UInt8 := if isdigit x then x - 48 else x - 65 + 10

def encodeBuf (c : UInt8) : List UInt8 :=
  if isalnum c then [c, 0, 0, 0] else [37, toHex (c >>> 4), toHex (c % 16), 0]

/-- `strOut += (char *) buf` stops at the first NUL. -/
def urlEncode (sIn : CString) (strOut : List UInt8) : List UInt8 :=
  sIn.bytes.foldl (fun out c => out ++ (encodeBuf c).takeWhile (· ≠ 0)) strOut

/-- The loop of `UrlDecode` from the index `ix` on: what it adds to `sOut`, and
the indices it reads. Each round moves on, so `len` of them are enough. -/
def urlDecodeLoop (sIn : ℕ → UInt8) (len : ℕ) : ℕ → ℕ → List UInt8 × List ℕ
  | 0, _ => ([], [])
  | fuel + 1, ix =>
    if ix < len then
      if sIn ix = 37 then
        let ch := (fromHex (sIn (ix + 1)) <<< 4) ||| fromHex (sIn (ix + 2))
        let next := urlDecodeLoop sIn len fuel (ix + 3)
        (ch :: next.1, ix :: (ix + 1) :: (ix + 2) :: next.2)
      else
        let ch := if sIn ix = 43 then 32 else sIn ix
        let next := urlDecodeLoop sIn len fuel (ix + 1)
        (ch :: next.1, ix :: next.2)
    else ([], [])

def urlDecode (sIn : CString) (beyond : ℕ → UInt8) : List UInt8 :=
  (urlDecodeLoop (sIn.at beyond) sIn.bytes.length sIn.bytes.length 0).1

def urlDecodeReads (sIn : CString) (beyond : ℕ → UInt8) : List ℕ :=
  (urlDecodeLoop (sIn.at beyond) sIn.bytes.length sIn.bytes.length 0).2

end Percent

section Unicode

/-- The loop of `IsUTF8` from the byte `start` on: what it returns, and the bytes
it reads. Pointers are offsets from `pBuffer`. Each round moves on, so `size` of them are enough. -/
def isUTF8Loop (p : ℕ → UInt8) (size : ℕ) : ℕ → ℕ → Bool × List ℕ
  | 0, _ => (true, [])
  | fuel + 1, start =>
    if start < size then
      if p start < 0x80 then
        let next := isUTF8Loop p size fuel (start + 1)
        (next.1, start :: next.2)
      else if p start < 0xC0 then (false, [start])
      else if p start < 0xE0 then
        if start + 1 ≥ size then (true, [start])
        else if p (start + 1) &&& 0xC0 ≠ 0x80 then (false, [start, start + 1])
        else
          let next := isUTF8Loop p size fuel (start + 2)
          (next.1, start :: (start + 1) :: next.2)
      else if p start < 0xF0 then
        if start + 2 ≥ size then (true, [start])
        else if p (start + 1) &&& 0xC0 ≠ 0x80 then (false, [start, start + 1])
        else if p (start + 2) &&& 0xC0 ≠ 0x80 then (false, [start, start + 1, start + 2])
        else
          let next := isUTF8Loop p size fuel (start + 3)
          (next.1, start :: (start + 1) :: (start + 2) :: next.2)
      else (false, [start])
    else (true, [])

/-- The byte `k` from `pBuffer` on; `beyond` is the memory behind the buffer. -/
def bufferAt (buffer : List UInt8) (beyond : ℕ → UInt8) (k : ℕ) : UInt8 :=
  if k < buffer.length then buffer.getD k 0 else beyond k

def isUTF8 (buffer : List UInt8) (beyond : ℕ → UInt8) : Bool :=
  (isUTF8Loop (bufferAt buffer beyond) buffer.length buffer.length 0).1

def isUTF8Reads (buffer : List UInt8) (beyond : ℕ → UInt8) : List ℕ :=
  (isUTF8Loop (bufferAt buffer beyond) buffer.length buffer.length 0).2

end Unicode

section Encoding

structure Encoder where
  i : ℕ
  array3 : ℕ → UInt8
  ret : List UInt8

/-- `char_array_4` from `char_array_3`; `promote` depends on the type of the arrays. -/
def array4 (promote : UInt8 → BitVec 32) (a : ℕ → UInt8) : List UInt8 :=
  [toByte ((promote (a 0) &&& 0xfc).sshiftRight 2),
    toByte (((promote (a 0) &&& 0x03) <<< 4) + (promote (a 1) &&& 0xf0).sshiftRight 4),
    toByte (((promote (a 1) &&& 0x0f) <<< 2) + (promote (a 2) &&& 0xc0).sshiftRight 6),
    toByte (promote (a 2) &&& 0x3f)]

/-- `table[c]`, where `c` becomes a `size_t`. -/
def charAt (promote : UInt8 → BitVec 32) (table : List UInt8) (c : UInt8) : UInt8 :=
  table.getD ((promote c).signExtend 64).toNat 0

def encodeStep (promote : UInt8 → BitVec 32) (table : List UInt8) (s : Encoder) (b : UInt8) : Encoder :=
  let a := Function.update s.array3 s.i b
  if s.i + 1 = 3 then ⟨0, a, s.ret ++ (array4 promote a).map (charAt promote table)⟩ else ⟨s.i + 1, a, s.ret⟩

def zeroFrom (i : ℕ) (a : ℕ → UInt8) : ℕ → UInt8 := fun j => if i ≤ j then 0 else a j

def encodeTail (promote : UInt8 → BitVec 32) (table : List UInt8) (s : Encoder) : List UInt8 :=
  if s.i = 0 then s.ret
  else
    s.ret ++ ((array4 promote (zeroFrom s.i s.array3)).take (s.i + 1)).map (charAt promote table) ++
      List.replicate (3 - s.i) 61

/-- `garbage` is what the array holds before it is written. -/
def b64encode (promote : UInt8 → BitVec 32) (table : List UInt8) (garbage : ℕ → UInt8) (x : List UInt8) :
    List UInt8 :=
  encodeTail promote table (x.foldl (encodeStep promote table) ⟨0, garbage, []⟩)

/-- Arrays of `unsigned char`. -/
def urlsafeB64encode (garbage : ℕ → UInt8) (x : List UInt8) : List UInt8 :=
  b64encode ofUChar urlsafeBase64Chars garbage x

/-- Arrays of `char`. -/
def base64Encode (garbage : ℕ → UInt8) (x : List UInt8) : List UInt8 := b64encode ofChar base64Chars garbage x

end Encoding

section Decoding

def isBase64 (c : UInt8) : Bool := isalnum c || c = 43 || c = 47

/-- `base64_chars.find(c)`, or `npos`. -/
def find (c : UInt8) : ℕ := (base64Chars.findIdx? (· = c)).getD (2 ^ 64 - 1)

structure Decoder where
  i : ℕ
  array4 : ℕ → UInt8
  ret : List UInt8

/-- The characters replaced by their positions, as far as an `unsigned char` holds them. -/
def positions (a : ℕ → UInt8) : ℕ → UInt8 := fun j => UInt8.ofNat (find (a j))

def array3 (a : ℕ → UInt8) : List UInt8 :=
  [toByte ((ofUChar (a 0) <<< 2) + (ofUChar (a 1) &&& 0x30).sshiftRight 4),
    toByte (((ofUChar (a 1) &&& 0xf) <<< 4) + (ofUChar (a 2) &&& 0x3c).sshiftRight 2),
    toByte (((ofUChar (a 2) &&& 0x3) <<< 6) + ofUChar (a 3))]

def decodeStep (s : Decoder) (c : UInt8) : Decoder :=
  let a := Function.update s.array4 s.i c
  if s.i + 1 = 4 then ⟨0, positions a, s.ret ++ array3 (positions a)⟩ else ⟨s.i + 1, a, s.ret⟩

def decodeLoop (s : Decoder) : List UInt8 → Decoder
  | [] => s
  | c :: rest => if c ≠ 61 && isBase64 c then decodeLoop (decodeStep s c) rest else s

def decodeTail (s : Decoder) : List UInt8 :=
  if s.i = 0 then s.ret else s.ret ++ (array3 (positions (zeroFrom s.i s.array4))).take (s.i - 1)

def base64Decode (garbage : ℕ → UInt8) (encodedString : List UInt8) : List UInt8 :=
  decodeTail (decodeLoop ⟨0, garbage, []⟩ encodedString)

end Decoding

end CppBase.Utility.UrlCodec
