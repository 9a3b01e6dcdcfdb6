import Mathlib.Data.Int.Notation
import CppBase.Lib.Slice

/-! A random-access file in memory: the bytes and a position among them. Writing
past the end makes the file longer; the position cannot be moved outside. -/

namespace CppBase.Lib

structure File (α : Type) where
  bytes : List α
  pos : ℕ
  pos_le : pos ≤ bytes.length

namespace File

variable {α : Type} (f : File α)

def openAt (bytes : List α) : File α := ⟨bytes, 0, Nat.zero_le _⟩

def remaining : ℕ := f.bytes.length - f.pos

def read (n : ℕ) : List α × File α :=
  (slice f.bytes f.pos (min n f.remaining),
    { f with pos := f.pos + min n f.remaining, pos_le := by have := f.pos_le; simp only [remaining]; omega })

def write (d : List α) : File α where
  bytes := patch f.bytes f.pos d
  pos := f.pos + d.length
  pos_le := le_length_patch f.pos_le

def seek (p : ℤ) : Option (File α) :=
  if h : 0 ≤ p ∧ p ≤ f.bytes.length then some { f with pos := p.toNat, pos_le := by omega } else none

end File

end CppBase.Lib
