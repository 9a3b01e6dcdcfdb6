import Mathlib.Algebra.Group.Nat.Defs
import CppBase.Lib.Fallible
import CppBase.Lib.Slice

/-! `core/iobuffer.h`. The allocation is the list of its bytes; `malloc` and
`realloc` succeed and fill new memory with anything. `size_t` wraps at `2 ^ 64`. -/

namespace CppBase.Core

open CppBase.Lib

structure IOBuffer where
  buf : List UInt8
  cap : ℕ
  readpos : ℕ
  writepos : ℕ

namespace IOBuffer

inductive Fault
  | assertion
  | outOfBounds
  deriving DecidableEq

section SizeT

def sizeMax : ℕ := 2 ^ 64

def add (a b : ℕ) : ℕ := (a + b) % sizeMax

def sub (a b : ℕ) : ℕ := (a + sizeMax - b) % sizeMax

def mul (a b : ℕ) : ℕ := a * b % sizeMax

end SizeT

section Memory

def malloc (fresh : ℕ → UInt8) (n : ℕ) : List UInt8 := (List.range n).map fresh

def realloc (fresh : ℕ → UInt8) (buf : List UInt8) (n : ℕ) :
    List UInt8 := buf.take n ++ malloc fresh (n - buf.length)

def memcpy (buf : List UInt8) (dst : ℕ) (data : List UInt8) : Except Fault (List UInt8) :=
  if dst + data.length ≤ buf.length then .ok (patch buf dst data) else .error .outOfBounds

def memmove (buf : List UInt8) (dst src n : ℕ) : Except Fault (List UInt8) :=
  if src + n ≤ buf.length then memcpy buf dst (slice buf src n) else .error .outOfBounds

end Memory

def create (fresh : ℕ → UInt8) (n : ℕ) : IOBuffer := ⟨malloc fresh n, n, 0, 0⟩

def size (s : IOBuffer) : ℕ := sub s.writepos s.readpos

def data (s : IOBuffer) : List UInt8 := slice s.buf s.readpos s.size

def hasRead (s : IOBuffer) (n : ℕ) : Except Fault IOBuffer :=
  let t := { s with readpos := add s.readpos n }
  if t.readpos ≤ t.writepos then .ok t else .error .assertion

def writeSize (s : IOBuffer) : ℕ := sub s.cap s.writepos

def hasWrite (s : IOBuffer) (n : ℕ) : Except Fault IOBuffer :=
  let t := { s with writepos := add s.writepos n }
  if t.writepos ≤ t.cap then .ok t else .error .assertion

/-- The first part of `grow`: unread bytes move to the start. -/
def compact (s : IOBuffer) : Except Fault IOBuffer :=
  if s.readpos > 0 then do
    let buf ← if s.writepos > s.readpos then memmove s.buf 0 s.readpos (sub s.writepos s.readpos) else .ok s.buf
    .ok { s with buf := buf, writepos := sub s.writepos s.readpos, readpos := 0 }
  else .ok s

def grow (fresh : ℕ → UInt8) (s : IOBuffer) (n : ℕ) : Except Fault IOBuffer := do
  let t ← s.compact
  if add t.writepos n > t.cap then
    let ns := max (add t.writepos n) (mul t.cap 2)
    .ok { t with buf := realloc fresh t.buf ns, cap := ns }
  else .ok t

def makeRoom (fresh : ℕ → UInt8) (s : IOBuffer) (n : ℕ) : Except Fault IOBuffer :=
  if add s.writepos n > s.cap then s.grow fresh n else .ok s

def append (fresh : ℕ → UInt8) (s : IOBuffer) (data : List UInt8) : Except Fault IOBuffer := do
  let t ← s.makeRoom fresh data.length
  let buf ← memcpy t.buf t.writepos data
  .ok { t with buf := buf, writepos := add t.writepos data.length }

def clear (s : IOBuffer) : IOBuffer := { s with readpos := 0, writepos := 0 }

/-- The caller stores bytes at `write_data()` and then calls `has_write`. -/
def writeDirect (s : IOBuffer) (data : List UInt8) : Except Fault IOBuffer := do
  let buf ← memcpy s.buf s.writepos data
  { s with buf := buf }.hasWrite data.length

/-- `fresh` is what memory that `realloc` adds holds. -/
inductive Op
  | append (fresh : ℕ → UInt8) (data : List UInt8)
  | writeDirect (data : List UInt8)
  | hasRead (n : ℕ)
  | grow (fresh : ℕ → UInt8) (n : ℕ)
  | clear

def step (s : IOBuffer) : Op → Except Fault IOBuffer
  | .append fresh data => s.append fresh data
  | .writeDirect data => s.writeDirect data
  | .hasRead n => s.hasRead n
  | .grow fresh n => s.grow fresh n
  | .clear => .ok s.clear

end IOBuffer

end CppBase.Core
