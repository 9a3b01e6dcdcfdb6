import CppBase.Lib.Fallible
import Mathlib.Data.Int.Notation

/-! `smart_ptr` of `cpp-examples/3-cpp11/example_shared_ptr_impl.cpp`. Objects and `shared_count`s live
on a heap, whose addresses are used again; a `smart_ptr` is a variable with a name. A pointer
stands for the object it points to, whatever its static type. -/

namespace CppBase.SmartPtr

open CppBase.Lib

/-- A `shared_count_` that is `none` was never set: each constructor sets it for a non-null pointer only. -/
structure Handle where
  ptr : Option ℕ
  sharedCount : Option ℕ
  deriving DecidableEq

structure Heap where
  object : ℕ → Bool := fun _ => false
  count : ℕ → Option ℤ := fun _ => none

inductive Fault
  | uninitialised
  | dangling
  deriving DecidableEq

namespace Heap

def getCount (h : Heap) : Option ℕ → Except Fault (ℕ × ℤ)
  | none => .error .uninitialised
  | some c =>
    match h.count c with
    | none => .error .dangling
    | some n => .ok (c, n)

def addCount (h : Heap) (sharedCount : Option ℕ) : Except Fault Heap := do
  let (c, n) ← h.getCount sharedCount
  .ok { h with count := Function.update h.count c (some (n + 1)) }

def reduceCount (h : Heap) (sharedCount : Option ℕ) : Except Fault (ℕ × ℤ × Heap) := do
  let (c, n) ← h.getCount sharedCount
  .ok (c, n - 1, { h with count := Function.update h.count c (some (n - 1)) })

/-- `delete ptr_; delete shared_count_;` -/
def delete (h : Heap) (o c : ℕ) : Except Fault Heap :=
  if h.object o then .ok ⟨Function.update h.object o false, Function.update h.count c none⟩ else .error .dangling

/-- The constructor from a pointer, with the address of the new count. The object is one just made,
or, for `smart_ptr<T>(p.get())`, one that is there. -/
def construct (h : Heap) : Option (ℕ × ℕ) → Handle × Heap
  | none => (⟨none, none⟩, h)
  | some (o, c) =>
    (⟨some o, some c⟩, ⟨Function.update h.object o true, Function.update h.count c (some 1)⟩)

def destroy (h : Heap) (p : Handle) : Except Fault Heap :=
  match p.ptr with
  | none => .ok h
  | some o => do
    let (c, n, h) ← h.reduceCount p.sharedCount
    if n = 0 then h.delete o c else .ok h

/-- `smart_ptr(other, ptr)`, of which a copy is the case `ptr = other.ptr_`. -/
def share (h : Heap) (other : Handle) (ptr : Option ℕ) : Except Fault (Handle × Heap) :=
  match ptr with
  | none => .ok (⟨none, none⟩, h)
  | some o => do
    let h ← h.addCount other.sharedCount
    .ok (⟨some o, other.sharedCount⟩, h)

def copy (h : Heap) (other : Handle) : Except Fault (Handle × Heap) := h.share other other.ptr

def useCount (h : Heap) (p : Handle) : Except Fault ℤ :=
  match p.ptr with
  | none => .ok 0
  | some _ => do
    let (_, n) ← h.getCount p.sharedCount
    .ok n

end Heap

/-- The new pointer and what is left of the other one. -/
def moveFrom (other : Handle) : Handle × Handle :=
  match other.ptr with
  | none => (⟨none, none⟩, other)
  | some o => (⟨some o, other.sharedCount⟩, ⟨none, other.sharedCount⟩)

structure State where
  vars : List (ℕ × Handle) := []
  heap : Heap := {}

/-- `assign` is `v = w`, also from a temporary: the constructor that moves is explicit, and the
parameter of `operator=` is copied. `share` is the public `smart_ptr(other, ptr)` and `cast` one of
the pointer casts that call it, of which `dynamic_pointer_cast` may fail. -/
inductive Op
  | construct (v : ℕ) (new : Option (ℕ × ℕ))
  | copy (v w : ℕ)
  | move (v w : ℕ)
  | share (v w : ℕ) (ptr : Option ℕ)
  | cast (v w : ℕ) (succeeds : Bool)
  | assign (v w : ℕ)
  | swap (v w : ℕ)
  | destroy (v : ℕ)

namespace State

def get (s : State) (v : ℕ) : Option Handle := (s.vars.find? fun x => x.1 = v).map Prod.snd

def put (s : State) (v : ℕ) (p : Handle) : State :=
  { s with vars := s.vars.map fun x => if x.1 = v then (v, p) else x }

def declare (s : State) (v : ℕ) (p : Handle) (h : Heap) : State := { vars := (v, p) :: s.vars, heap := h }

def share (s : State) (v w : ℕ) (ptr : Handle → Option ℕ) : Except Fault State :=
  match s.get w with
  | none => .ok s
  | some q => do
    let (p, h) ← s.heap.share q (ptr q)
    .ok (s.declare v p h)

/-- A call on a variable that is not there is no call. -/
def step (s : State) : Op → Except Fault State
  | .construct v new =>
    let (p, h) := s.heap.construct new
    .ok (s.declare v p h)
  | .copy v w => s.share v w fun q => q.ptr
  | .move v w =>
    match s.get w with
    | none => .ok s
    | some q => .ok ((s.put w (moveFrom q).2).declare v (moveFrom q).1 s.heap)
  | .share v w ptr => s.share v w fun _ => ptr
  | .cast v w succeeds => s.share v w fun q => if succeeds then q.ptr else none
  | .assign v w =>
    match s.get v, s.get w with
    | some p, some q => do
      let (rhs, h) ← s.heap.copy q
      -- behind the swap `rhs` is what the variable was
      let h ← h.destroy p
      .ok { s.put v rhs with heap := h }
    | _, _ => .ok s
  | .swap v w =>
    match s.get v, s.get w with
    | some p, some q => .ok ((s.put v q).put w p)
    | _, _ => .ok s
  | .destroy v =>
    match s.get v with
    | none => .ok s
    | some p => do
      let h ← s.heap.destroy p
      .ok { vars := s.vars.filter (·.1 ≠ v), heap := h }

end State

end CppBase.SmartPtr
