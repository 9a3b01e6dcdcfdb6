import CppBase.Lib.Bytes
import CppBase.Lib.Exec
import Mathlib.Data.List.TakeDrop

/-! `PackBuffer`, `Header` and `Pack` of `packet.h`: how a message is written.
The host is little-endian, so the `XHTON` macros do nothing. Allocations succeed. -/

namespace CppBase.Packet

open CppBase.Lib

structure PackError where
  what : String
  deriving DecidableEq, Repr

def headerSize : ℕ := 10

/-- The allocated bytes, `none` where nothing was written yet; `cap` is how many there are. -/
structure PackBuffer where
  buf : List (Option UInt8)
  len : ℕ
  len_le : len ≤ buf.length
  deriving DecidableEq

namespace PackBuffer

def cap (b : PackBuffer) : ℕ := b.buf.length

def ofCap (n : ℕ) : PackBuffer := ⟨List.replicate n none, 0, Nat.zero_le _⟩

@[simp] theorem cap_ofCap (n : ℕ) : (ofCap n).cap = n := List.length_replicate

def contents (b : PackBuffer) : List (Option UInt8) := b.buf.take b.len

def reserve (b : PackBuffer) (n : ℕ) : PackBuffer :=
  if n ≤ b.cap then b
  else ⟨b.buf ++ List.replicate (n - b.cap) none, b.len, b.len_le.trans (by simp)⟩

/-- `memcpy(buf + pos, data, size)` -/
def store (buf : List (Option UInt8)) (pos : ℕ) (data : List UInt8) : List (Option UInt8) :=
  buf.take pos ++ data.map some ++ buf.drop (pos + data.length)

/-- The first block of `append`: the capacity at least doubles. -/
def grow (b : PackBuffer) (size : ℕ) : PackBuffer :=
  if b.len + size > b.cap then b.reserve (max (b.len + size) (b.cap * 2)) else b

theorem le_cap_reserve (b : PackBuffer) (n : ℕ) : n ≤ (b.reserve n).cap ∧ b.cap ≤ (b.reserve n).cap := by
  unfold reserve
  split_ifs with h
  · exact ⟨h, le_refl _⟩
  · simp [cap] at h ⊢
    omega

theorem le_cap_grow (b : PackBuffer) (size : ℕ) :
    b.len + size ≤ (b.grow size).cap ∧ b.cap ≤ (b.grow size).cap := by
  unfold grow
  split_ifs with h
  · obtain ⟨h1, h2⟩ := b.le_cap_reserve (max (b.len + size) (b.cap * 2))
    exact ⟨(le_max_left _ _).trans h1, h2⟩
  · exact ⟨not_lt.mp h, le_refl _⟩

theorem length_store {buf : List (Option UInt8)} {pos : ℕ} {data : List UInt8}
    (h : pos + data.length ≤ buf.length) : (store buf pos data).length = buf.length := by
  simp only [store, List.length_append, List.length_take, List.length_map, List.length_drop]
  omega

def append (b : PackBuffer) (data : List UInt8) : PackBuffer where
  buf := store (b.grow data.length).buf b.len data
  len := b.len + data.length
  len_le := by
    rw [length_store (b.le_cap_grow data.length).1]
    exact (b.le_cap_grow data.length).1

def seek (b : PackBuffer) (pos : ℕ) : Except PackError PackBuffer :=
  if h : pos > b.cap then .error ⟨"seek buffer overflow"⟩
  else .ok { b with len := pos, len_le := not_lt.mp h }

/-- `pos` is checked, but the bytes go to the start of the buffer. -/
def replace (b : PackBuffer) (pos : ℕ) (rep : List UInt8) : Except PackError PackBuffer :=
  if h : pos + rep.length > b.len then .error ⟨"replace buffer overflow"⟩
  else
    have hrep : rep.length ≤ b.len := by omega
    .ok { b with buf := store b.buf 0 rep, len_le := by rw [length_store] <;> have := b.len_le <;> omega }

def clear (b : PackBuffer) : PackBuffer := { b with len := 0, len_le := Nat.zero_le _ }

/-- The caller gets the memory, and the buffer is left with none. -/
def release (b : PackBuffer) : List (Option UInt8) × PackBuffer := (b.buf, ⟨[], 0, Nat.zero_le _⟩)

theorem le_cap_append (b : PackBuffer) (data : List UInt8) : b.cap ≤ (b.append data).cap := by
  have hlen : (b.append data).cap = (b.grow data.length).cap := length_store (b.le_cap_grow data.length).1
  rw [hlen]
  exact (b.le_cap_grow data.length).2

theorem cap_seek {b b' : PackBuffer} {pos : ℕ} (h : b.seek pos = .ok b') : b'.cap = b.cap := by
  unfold seek at h
  split_ifs at h
  cases h
  rfl

theorem cap_replace {b b' : PackBuffer} {pos : ℕ} {rep : List UInt8} (h : b.replace pos rep = .ok b') :
    b'.cap = b.cap := by
  unfold replace at h
  split_ifs at h with hlen
  cases h
  have hle := b.len_le
  exact length_store (by omega)

end PackBuffer

structure Header where
  length : UInt32 := 0
  uri : UInt32 := 0
  resCode : UInt16 := 200
  deriving DecidableEq, Repr

def Header.getRawHeader (h : Header) : List UInt8 :=
  leBytes 4 h.length.toNat ++ leBytes 4 h.uri.toNat ++ leBytes 2 h.resCode.toNat

def Header.parseRawHeader (buffer : List UInt8) : Header where
  length := UInt32.ofNat (ofLeBytes (buffer.take 4))
  uri := UInt32.ofNat (ofLeBytes ((buffer.drop 4).take 4))
  resCode := UInt16.ofNat (ofLeBytes ((buffer.drop 8).take 2))

/-- A `Pack` owns a buffer that starts with 256 bytes and never shrinks, so there
is always room for a header. -/
structure Pack where
  m_buffer : PackBuffer
  room : headerSize ≤ m_buffer.cap

namespace Pack

def empty : Pack := ⟨PackBuffer.ofCap 256, by rw [PackBuffer.cap_ofCap]; decide⟩

def size (p : Pack) : ℕ := p.m_buffer.len

def contents (p : Pack) : List (Option UInt8) := p.m_buffer.contents

/-- `size_t` subtraction wraps around. -/
def bodySize (p : Pack) : ℕ := if headerSize ≤ p.size then p.size - headerSize else p.size + 2 ^ 64 - headerSize

def bodyContents (p : Pack) : List (Option UInt8) := (p.m_buffer.buf.drop headerSize).take p.bodySize

end Pack

/-- Code that writes to a `Pack`; a `Marshallable` is such code. -/
abbrev PackM := Prog PackError Pack

def push (s : List UInt8) : PackM Unit :=
  modifies fun p => ⟨p.m_buffer.append s, p.room.trans (p.m_buffer.le_cap_append s)⟩

def clear : PackM Unit := modifies fun p => ⟨p.m_buffer.clear, p.room⟩

def seek (pos : ℕ) : PackM Unit :=
  attempt fun p =>
    match h : p.m_buffer.seek pos with
    | .ok b => .ok ⟨b, p.room.trans (PackBuffer.cap_seek h).ge⟩
    | .error e => .error e

def replace (pos : ℕ) (rep : List UInt8) : PackM Unit :=
  attempt fun p =>
    match h : p.m_buffer.replace pos rep with
    | .ok b => .ok ⟨b, p.room.trans (PackBuffer.cap_replace h).ge⟩
    | .error e => .error e

def pushUint8 (u8 : UInt8) : PackM Unit := push (leBytes 1 u8.toNat)
def pushUint16 (u16 : UInt16) : PackM Unit := push (leBytes 2 u16.toNat)
def pushUint32 (u32 : UInt32) : PackM Unit := push (leBytes 4 u32.toNat)
def pushUint64 (u64 : UInt64) : PackM Unit := push (leBytes 8 u64.toNat)

def pushVarstr (s : List UInt8) : PackM Unit := do
  if s.length > 0xFFFF then fails ⟨"push_varstr: varstr too big"⟩
  else
    pushUint16 (UInt16.ofNat s.length)
    push s

/-- Room for the header is left by `seek`, the header is filled in last. -/
def marshall (u : UInt32) (m : PackM Unit) : PackM Unit := do
  seek headerSize
  m
  let size ← gets Pack.size
  let header : Header := { uri := u, length := UInt32.ofNat size }
  replace 0 header.getRawHeader

end CppBase.Packet
