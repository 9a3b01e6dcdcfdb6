import CppBase.Lib.Bytes
import CppBase.Lib.Fallible
import CppBase.Lib.Slice

/-! `muduo/net/Buffer.h` and `Buffer.cc`. The vector is the list of its bytes; sizes stay
below the range of `size_t`. An `intN_t` is its bits. -/

namespace CppBase.Muduo

open CppBase.Lib

namespace Buffer

def kCheapPrepend : ℕ := 8

def kInitialSize : ℕ := 1024

/-- `sizeof extrabuf` -/
def extraSize : ℕ := 65536

inductive Fault
  | assertion
  | outOfBounds
  /-- `resize` beyond `max_size()`. -/
  | lengthError
  deriving DecidableEq

end Buffer

structure Buffer where
  buffer : List UInt8
  readerIndex : ℕ
  writerIndex : ℕ
  order : readerIndex ≤ writerIndex
  bound : writerIndex ≤ buffer.length
  cheap : Buffer.kCheapPrepend ≤ buffer.length

namespace Buffer

def create (initialSize : ℕ) : Buffer where
  buffer := List.replicate (kCheapPrepend + initialSize) 0
  readerIndex := kCheapPrepend
  writerIndex := kCheapPrepend
  order := le_rfl
  bound := by simp
  cheap := by simp

def readableBytes (s : Buffer) : ℕ := s.writerIndex - s.readerIndex

def writableBytes (s : Buffer) : ℕ := s.buffer.length - s.writerIndex

def prependableBytes (s : Buffer) : ℕ := s.readerIndex

def contents (s : Buffer) : List UInt8 := slice s.buffer s.readerIndex s.readableBytes

theorem length_contents (s : Buffer) : s.contents.length = s.readableBytes := by
  have := s.order
  have := s.bound
  exact length_slice (by unfold readableBytes; omega)

section Reading

def retrieveAll (s : Buffer) : Buffer where
  buffer := s.buffer
  readerIndex := kCheapPrepend
  writerIndex := kCheapPrepend
  order := le_rfl
  bound := s.cheap
  cheap := s.cheap

def retrieve (s : Buffer) (len : ℕ) : Except Fault Buffer :=
  if len ≤ s.readableBytes then
    if h : len < s.readableBytes then
      .ok { s with readerIndex := s.readerIndex + len, order := by unfold readableBytes at h; omega }
    else .ok s.retrieveAll
  else .error .assertion

def retrieveAsString (s : Buffer) (len : ℕ) : Except Fault (List UInt8 × Buffer) :=
  if len ≤ s.readableBytes then s.retrieve len >>= fun t => .ok (s.contents.take len, t) else .error .assertion

def retrieveAllAsString (s : Buffer) : Except Fault (List UInt8 × Buffer) := s.retrieveAsString s.readableBytes

end Reading

section Writing

/-- `std::copy(data, data + len, begin() + pos)` -/
def copyIn (s : Buffer) (pos : ℕ) (data : List UInt8) : Except Fault Buffer :=
  if h : pos + data.length ≤ s.buffer.length then
    .ok { s with
      buffer := patch s.buffer pos data
      bound := by rw [length_patch h]; exact s.bound
      cheap := by rw [length_patch h]; exact s.cheap }
  else .error .outOfBounds

def hasWritten (s : Buffer) (len : ℕ) : Except Fault Buffer :=
  if h : len ≤ s.writableBytes then
    .ok { s with
      writerIndex := s.writerIndex + len
      order := by have := s.order; omega
      bound := by have := s.bound; unfold writableBytes at h; omega }
  else .error .assertion

def unwrite (s : Buffer) (len : ℕ) : Except Fault Buffer :=
  if h : len ≤ s.readableBytes then
    .ok { s with
      writerIndex := s.writerIndex - len
      order := by have := s.order; unfold readableBytes at h; omega
      bound := by have := s.bound; omega }
  else .error .assertion

/-- `buffer_.resize(n)` for an `n` beyond the end. -/
def extend (s : Buffer) (n : ℕ) : Buffer :=
  { s with
    buffer := s.buffer ++ List.replicate (n - s.buffer.length) 0
    bound := by rw [List.length_append]; exact Nat.le_add_right_of_le s.bound
    cheap := by rw [List.length_append]; exact Nat.le_add_right_of_le s.cheap }

/-- Room for the readable bytes at the front. -/
theorem front_bound (s : Buffer) (h : kCheapPrepend < s.readerIndex) :
    kCheapPrepend + s.readableBytes ≤ s.buffer.length := by
  have := s.order
  have := s.bound
  unfold readableBytes
  omega

def makeSpace (s : Buffer) (len : ℕ) : Except Fault Buffer :=
  if s.writableBytes + s.prependableBytes < len + kCheapPrepend then .ok (s.extend (s.writerIndex + len))
  else if h : kCheapPrepend < s.readerIndex then
    -- the readable bytes move to the front
    .ok
      { buffer := patch s.buffer kCheapPrepend s.contents
        readerIndex := kCheapPrepend
        writerIndex := kCheapPrepend + s.readableBytes
        order := Nat.le_add_right _ _
        bound := by rw [length_patch (by rw [length_contents]; exact s.front_bound h)]; exact s.front_bound h
        cheap := by rw [length_patch (by rw [length_contents]; exact s.front_bound h)]; exact s.cheap }
  else .error .assertion

def ensureWritableBytes (s : Buffer) (len : ℕ) : Except Fault Buffer := do
  let t ← if s.writableBytes < len then s.makeSpace len else .ok s
  if t.writableBytes ≥ len then .ok t else .error .assertion

def append (s : Buffer) (data : List UInt8) : Except Fault Buffer := do
  let t ← s.ensureWritableBytes data.length
  let u ← t.copyIn t.writerIndex data
  u.hasWritten data.length

def prepend (s : Buffer) (data : List UInt8) : Except Fault Buffer :=
  if data.length ≤ s.prependableBytes then
    { s with
      readerIndex := s.readerIndex - data.length
      order := Nat.le_trans (Nat.sub_le _ _) s.order }.copyIn (s.readerIndex - data.length) data
  else .error .assertion

/-- A `StringPiece`: where it points to, and how many bytes it has, an `int`. -/
def toStringPiece (s : Buffer) : List UInt8 × ℤ := (s.contents, (s.readableBytes : ℤ).bmod (2 ^ 32))

/-- `append(str.data(), str.size())`. As a `size_t` a negative size is beyond what a vector
holds, unless adding `kCheapPrepend` in `makeSpace` wraps around. -/
def appendPiece (s : Buffer) (str : List UInt8 × ℤ) : Except Fault Buffer :=
  if str.2 < -kCheapPrepend then .error .lengthError
  else if str.2 < 0 then .error .assertion
  else s.append (str.1.take str.2.toNat)

/-- The buffer that `swap` leaves here. -/
def shrink (s : Buffer) (reserve : ℕ) : Except Fault Buffer := do
  let other ← (create kInitialSize).ensureWritableBytes (s.readableBytes + reserve)
  other.appendPiece s.toStringPiece

end Writing

section Integers

def appendInt (s : Buffer) (n : ℕ) (x : BitVec (8 * n)) : Except Fault Buffer := s.append (beBytes n x.toNat)

def peekInt (s : Buffer) (n : ℕ) : Except Fault (BitVec (8 * n)) :=
  if s.readableBytes ≥ n then .ok (BitVec.ofNat (8 * n) (ofBeBytes (s.contents.take n))) else .error .assertion

def readInt (s : Buffer) (n : ℕ) : Except Fault (BitVec (8 * n) × Buffer) := do
  let x ← s.peekInt n
  let t ← s.retrieve n
  .ok (x, t)

def prependInt (s : Buffer) (n : ℕ) (x : BitVec (8 * n)) : Except Fault Buffer := s.prepend (beBytes n x.toNat)

end Integers

section Sockets

/-- How much `readv` can return: what is writable, and `extrabuf` unless that is enough. -/
def readLimit (s : Buffer) : ℕ := s.writableBytes + if s.writableBytes < extraSize then extraSize else 0

def readFd (s : Buffer) : Option (List UInt8) → Except Fault Buffer
  | none => .ok s
  | some data =>
    if data.length ≤ s.writableBytes then do
      let t ← s.copyIn s.writerIndex data
      t.hasWritten data.length
    else do
      let t ← s.copyIn s.writerIndex (data.take s.writableBytes)
      let u ← t.hasWritten s.writableBytes
      u.append (data.drop s.writableBytes)

end Sockets

/-- The caller stores bytes at `beginWrite()` and then calls `hasWritten`. -/
def writeDirect (s : Buffer) (data : List UInt8) : Except Fault Buffer := do
  let t ← s.copyIn s.writerIndex data
  t.hasWritten data.length

/-- A call; `readFd` with what `readv` returns. The integers are those of `n` bytes. -/
inductive Op
  | retrieve (len : ℕ)
  | retrieveAll
  | retrieveAsString (len : ℕ)
  | retrieveAllAsString
  | append (data : List UInt8)
  | ensureWritableBytes (len : ℕ)
  | writeDirect (data : List UInt8)
  | unwrite (len : ℕ)
  | prepend (data : List UInt8)
  | shrink (reserve : ℕ)
  | appendInt (n : ℕ) (x : BitVec (8 * n))
  | peekInt (n : ℕ)
  | readInt (n : ℕ)
  | prependInt (n : ℕ) (x : BitVec (8 * n))
  | readFd (data : Option (List UInt8))

inductive Answer
  | none
  | string (bytes : List UInt8)
  | int (n : ℕ) (x : BitVec (8 * n))

def silent (t : Buffer) : Answer × Buffer := (.none, t)

def call (s : Buffer) : Op → Except Fault (Answer × Buffer)
  | .retrieve len => silent <$> s.retrieve len
  | .retrieveAll => .ok (silent s.retrieveAll)
  | .retrieveAsString len => s.retrieveAsString len >>= fun r => .ok (.string r.1, r.2)
  | .retrieveAllAsString => s.retrieveAllAsString >>= fun r => .ok (.string r.1, r.2)
  | .append data => silent <$> s.append data
  | .ensureWritableBytes len => silent <$> s.ensureWritableBytes len
  | .writeDirect data => silent <$> s.writeDirect data
  | .unwrite len => silent <$> s.unwrite len
  | .prepend data => silent <$> s.prepend data
  | .shrink reserve => silent <$> s.shrink reserve
  | .appendInt n x => silent <$> s.appendInt n x
  | .peekInt n => s.peekInt n >>= fun x => .ok (.int n x, s)
  | .readInt n => s.readInt n >>= fun r => .ok (.int n r.1, r.2)
  | .prependInt n x => silent <$> s.prependInt n x
  | .readFd data => silent <$> s.readFd data

end Buffer

end CppBase.Muduo
