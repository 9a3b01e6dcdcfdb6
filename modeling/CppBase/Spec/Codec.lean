import CppBase.Lib.Keyed
import CppBase.Spec.Unpack
import Mathlib.Data.Prod.Lex

/-! The overloads of `operator<<` and `operator>>` of `packet.h`. A `Codec` is
what the templates use of an element type; each template is a function on codecs,
and `Ty` is the grammar of the types they can be instantiated with. -/

namespace CppBase.Packet

open CppBase.Lib

/-- `put` is `operator<<`, `get v` is `operator>>` into a variable that holds `v`,
`countCheck count size` is `marshal_count_check`. -/
structure Codec (α : Type) where
  countCheck : UInt32 → UInt32 → UnpackM Unit
  put : α → PackM Unit
  get : α → UnpackM α

/-- `marshal_count_check` of a type it is not specialised for. -/
def countCheckUnknown (sizeof : ℕ) (count _size : UInt32) : UnpackM Unit :=
  if (count.toNat * sizeof) % 2 ^ 64 > 128 * 1024 * 1024 then
    fails (.unpackError "marshal count check unknown error")
  else pure ()

def countCheckScalar (name : String) (width : ℕ) (count size : UInt32) : UnpackM Unit :=
  if count.toNat * width > size.toNat then fails (.unpackError ("marshal count check " ++ name ++ " error"))
  else pure ()

namespace Codec

def bool : Codec Bool where
  countCheck := countCheckScalar "bool" 1
  put sign := pushUint8 (if sign then 1 else 0)
  get _ := do return if (← popUint8) = 0 then false else true

def uint8 : Codec UInt8 where
  countCheck := countCheckScalar "uint8_t" 1
  put := pushUint8
  get _ := popUint8

def uint16 : Codec UInt16 where
  countCheck := countCheckScalar "uint16_t" 2
  put := pushUint16
  get _ := popUint16

def uint32 : Codec UInt32 where
  countCheck := countCheckScalar "uint32_t" 4
  put := pushUint32
  get _ := popUint32

def uint64 : Codec UInt64 where
  countCheck := countCheckScalar "uint64_t" 8
  put := pushUint64
  get _ := popUint64

/-- A `std::string` is its bytes. -/
def string (sizeof : ℕ) : Codec (List UInt8) where
  countCheck := countCheckUnknown sizeof
  put := pushVarstr
  get _ := popVarstr

variable {α β κ : Type}

/-- Pairs, and `value_type` of a map, whose constant key is cast. -/
def pair (sizeof : ℕ) (a : Codec α) (b : Codec β) : Codec (α ×ₗ β) where
  countCheck := countCheckUnknown sizeof
  put p := do
    a.put (ofLex p).1
    b.put (ofLex p).2
  get p := do
    let x ← a.get (ofLex p).1
    let y ← b.get (ofLex p).2
    return toLex (x, y)

def putAll (c : Codec α) : List α → PackM Unit
  | [] => pure ()
  | x :: xs => do
    c.put x
    c.putAll xs

def putContainer (c : Codec α) (xs : List α) : PackM Unit := do
  pushUint32 (UInt32.ofNat xs.length)
  c.putAll xs

def resize (n : ℕ) (d : α) (xs : List α) : List α := xs.take n ++ List.replicate (n - xs.length) d

theorem resize_nil (n : ℕ) (d : α) : resize n d [] = List.replicate n d := by
  simp [resize]

theorem length_resize (n : ℕ) (d : α) (xs : List α) : (resize n d xs).length = n := by
  rw [resize, List.length_append, List.length_take, List.length_replicate]
  omega

/-- The loop that reads each element of a vector in place. -/
def getEach (c : Codec α) : List α → UnpackM (List α)
  | [] => pure []
  | x :: xs => do
    let y ← c.get x
    let ys ← c.getEach xs
    return y :: ys

/-- A count of zero returns before the vector is resized. -/
def vector (sizeof : ℕ) [Inhabited α] (c : Codec α) : Codec (List α) where
  countCheck := countCheckUnknown sizeof
  put := c.putContainer
  get v := do
    let count ← popUint32
    if count = 0 then return v
    else
      c.countCheck count (UInt32.ofNat (← gets Unpack.m_size))
      c.getEach (resize count.toNat default v)

variable [LinearOrder κ] {key : α → κ}

/-- The loop that reads and inserts the elements of a set or a map. -/
def getInsert [Inhabited α] (c : Codec α) : ℕ → Keyed key → UnpackM (Keyed key)
  | 0, s => pure s
  | count + 1, s => do
    let tmp ← c.get default
    c.getInsert count (s.insert tmp)

/-- Sets and maps, which differ in the key of an element. The target is not cleared. -/
def keyed (sizeof : ℕ) [Inhabited α] (key : α → κ) (c : Codec α) : Codec (Keyed key) where
  countCheck := countCheckUnknown sizeof
  put s := c.putContainer s.toList
  get s := do
    let count ← popUint32
    c.getInsert count.toNat s

def set (sizeof : ℕ) [LinearOrder α] [Inhabited α] (c : Codec α) : Codec (Keyed (id : α → α)) :=
  c.keyed sizeof id

def map (sizeof sizeofValue : ℕ) [LinearOrder α] [Inhabited α] [Inhabited β] (k : Codec α) (v : Codec β) :
    Codec (Keyed fun p : α ×ₗ β => (ofLex p).1) :=
  (pair sizeofValue k v).keyed sizeof fun p => (ofLex p).1

end Codec

/-- The type grammar. `std::vector<bool>` is in it although its `operator>>` does
not compile: the elements of that vector are not `bool` variables. -/
inductive Ty
  | bool
  | uint8
  | uint16
  | uint32
  | uint64
  | string
  | pair (a b : Ty)
  | vector (t : Ty)
  | set (t : Ty)
  | map (k v : Ty)
  deriving DecidableEq, Repr

structure OrdType where
  Val : Type
  [ord : LinearOrder Val]
  [dflt : Inhabited Val]

attribute [instance] OrdType.ord OrdType.dflt

def Ty.ordType : Ty → OrdType
  | .bool => ⟨Bool⟩
  | .uint8 => ⟨UInt8⟩
  | .uint16 => ⟨UInt16⟩
  | .uint32 => ⟨UInt32⟩
  | .uint64 => ⟨UInt64⟩
  | .string => ⟨List UInt8⟩
  | .pair a b => ⟨a.ordType.Val ×ₗ b.ordType.Val⟩
  | .vector t => ⟨List t.ordType.Val⟩
  | .set t => ⟨Keyed (id : t.ordType.Val → t.ordType.Val)⟩
  | .map k v => ⟨Keyed fun p : k.ordType.Val ×ₗ v.ordType.Val => (ofLex p).1⟩

abbrev Ty.Val (t : Ty) : Type := t.ordType.Val

/-- The overloads for a type; `sizeof` is the host's. -/
def Ty.codec (sizeof : Ty → ℕ) : (t : Ty) → Codec t.Val
  | .bool => Codec.bool
  | .uint8 => Codec.uint8
  | .uint16 => Codec.uint16
  | .uint32 => Codec.uint32
  | .uint64 => Codec.uint64
  | .string => Codec.string (sizeof .string)
  | .pair a b => Codec.pair (sizeof (.pair a b)) (a.codec sizeof) (b.codec sizeof)
  | .vector t => Codec.vector (sizeof (.vector t)) (t.codec sizeof)
  | .set t => Codec.set (sizeof (.set t)) (t.codec sizeof)
  | .map k v => Codec.map (sizeof (.map k v)) (sizeof (.pair k v)) (k.codec sizeof) (v.codec sizeof)

def Ty.decode (sizeof : Ty → ℕ) (t : Ty) (prior : t.Val) (bytes : List UInt8) : Except Fault t.Val × Unpack :=
  exec ((t.codec sizeof).get prior) (Unpack.ofBytes bytes)

end CppBase.Packet
