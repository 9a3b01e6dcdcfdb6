import CppBase.Lib.Chain
import CppBase.Lib.Fallible
import Mathlib.Algebra.Group.Int.Defs
import Mathlib.Algebra.Group.Nat.Defs
import Mathlib.Data.List.InsertIdx

/-! The linked list of `data_structures_and_algorithms/struct/singleList.cpp`. Nodes are
kept by their address; `NULL` is `none`. The memory of the values is their owner's. -/

namespace CppBase.DataStructures.SingleList

open CppBase.Lib

section Memory

/-- What is undefined: following `NULL` or a pointer to no node, or a loop that never ends. -/
inductive Fault where
  | null
  | dangling
  | endless
  deriving DecidableEq

/-- A `linkedList` with the memory its nodes are in. Addresses from `fresh` on were never
used; `free` tells whether a function to free values is set. -/
structure LinkedList (α : Type) where
  nodes : ℕ → Option (Cell ℕ α)
  fresh : ℕ
  head : Option ℕ
  len : ℕ
  free : Bool

variable {α : Type}

def LinkedList.next (list : LinkedList α) : Option ℕ → Except Fault (Option ℕ)
  | none => .error .null
  | some a =>
    match list.nodes a with
    | some node => .ok node.next
    | none => .error .dangling

def LinkedList.setNext (list : LinkedList α) (p q : Option ℕ) : Except Fault (LinkedList α) :=
  match p with
  | none => .error .null
  | some a =>
    match list.nodes a with
    | some node => .ok { list with nodes := Function.update list.nodes a (some { node with next := q }) }
    | none => .error .dangling

def LinkedList.malloc (list : LinkedList α) (next : Option ℕ) (value : α) : LinkedList α :=
  { list with nodes := Function.update list.nodes list.fresh (some ⟨next, value⟩), fresh := list.fresh + 1 }

/-- More rounds than any loop takes that ends: it passes each node at most twice. -/
def LinkedList.rounds (list : LinkedList α) : ℕ := 2 * list.fresh + 2

/-- Follow `next` from `cur` until `stops`, with `pre` one behind. -/
def LinkedList.follow (list : LinkedList α) (stops : Option ℕ → Bool) :
    ℕ → Option ℕ → Option ℕ → Except Fault (Option ℕ)
  | 0, pre, cur => if stops cur then .ok pre else .error .endless
  | fuel + 1, pre, cur =>
    if stops cur then .ok pre
    else do
      let next ← list.next cur
      list.follow stops fuel cur next

end Memory

section Functions

variable {α : Type}

def listCreate : LinkedList α := ⟨fun _ => none, 0, none, 0, false⟩

def emptyLoop : ℕ → LinkedList α → Except Fault (LinkedList α)
  | 0, list => if list.head = none then .ok list else .error .endless
  | fuel + 1, list =>
    match list.head with
    | none => .ok list
    | some node => do
      let next ← list.next (some node)
      emptyLoop fuel { list with head := next, nodes := Function.update list.nodes node none }

def listEmpty (list : LinkedList α) : Except Fault (LinkedList α) := emptyLoop list.rounds list

def listAddNodeHead (list : LinkedList α) (value : α) : LinkedList α :=
  { list.malloc list.head value with head := some list.fresh, len := list.len + 1 }

def listAddNodeTail (list : LinkedList α) (value : α) : Except Fault (LinkedList α) := do
  let node := some list.fresh
  let list := list.malloc none value
  if list.head = none ∧ list.len = 0 then .ok { list with head := node, len := list.len + 1 }
  else
    let pre ← list.follow (· = none) list.rounds list.head list.head
    let list ← list.setNext pre node
    .ok { list with len := list.len + 1 }

def LinkedList.before (list : LinkedList α) (oldNode : ℕ) : ℕ → Option ℕ → Except Fault (Option ℕ)
  | 0, _ => .error .endless
  | fuel + 1, pre => do
    let next ← list.next pre
    if next ≠ some oldNode then list.before oldNode fuel next else .ok pre

def listInsertNode (list : LinkedList α) (oldNode : Option ℕ) (value : α) (after : Bool) :
    Except Fault (LinkedList α) :=
  match oldNode with
  | none => .ok list
  | some old =>
    let pNode := some list.fresh
    if after then do
      let next ← list.next oldNode
      let list ← (list.malloc next value).setNext oldNode pNode
      .ok { list with len := list.len + 1 }
    else do
      let pre ← list.before old list.rounds list.head
      let list ← (list.malloc oldNode value).setNext pre pNode
      .ok { list with len := list.len + 1 }

/-- `--len`, on a `size_t`. -/
def decrement (len : ℕ) : ℕ := if len = 0 then 2 ^ 64 - 1 else len - 1

def listDelNode (list : LinkedList α) (node : Option ℕ) : Except Fault (LinkedList α) :=
  match node with
  | none => .ok list
  | some a => do
    let pre ← list.follow (fun cur => cur = none ∨ cur = node) list.rounds list.head list.head
    if pre = none then .ok list
    else
      let next ← list.next node
      let list ← list.setNext pre next
      let list ← list.setNext node none
      let list := { list with len := decrement list.len }
      .ok (if list.free then { list with nodes := Function.update list.nodes a none } else list)

def LinkedList.walk (list : LinkedList α) : ℕ → Option ℕ → Except Fault (Option ℕ)
  | 0, p => .ok p
  | n + 1, p => do
    let next ← list.next p
    list.walk n next

def listIndex (list : LinkedList α) (index : ℤ) : Except Fault (Option ℕ) :=
  if index ≤ 0 ∨ index > list.len then .ok none else list.walk index.toNat list.head

def rewindLoop : ℕ → LinkedList α → Option ℕ → Option ℕ → Except Fault (LinkedList α)
  | _, list, none, pre => .ok { list with head := pre }
  | 0, _, some _, _ => .error .endless
  | fuel + 1, list, some head, pre => do
    let next ← list.next (some head)
    let list ← list.setNext (some head) pre
    rewindLoop fuel list next (some head)

def listRewind (list : LinkedList α) : Except Fault (LinkedList α) :=
  rewindLoop list.rounds list list.head none

end Functions

section Calls

variable {α : Type}

/-- The node of a position, as a caller holds it. -/
def LinkedList.nodeAt (list : LinkedList α) (i : ℕ) : Option ℕ := (list.walk i list.head).toOption.join

inductive Op (α : Type) where
  | addHead (value : α)
  | addTail (value : α)
  | insert (i : ℕ) (value : α) (after : Bool)
  | del (i : ℕ)
  | empty
  | rewind

def step (list : LinkedList α) : Op α → Except Fault (LinkedList α)
  | .addHead value => .ok (listAddNodeHead list value)
  | .addTail value => listAddNodeTail list value
  | .insert i value after => listInsertNode list (list.nodeAt i) value after
  | .del i => listDelNode list (list.nodeAt i)
  | .empty => listEmpty list
  | .rewind => listRewind list

/-- The same on a sequence of values; a position that there is not changes nothing. -/
def reference (l : List α) : Op α → List α
  | .addHead value => value :: l
  | .addTail value => l ++ [value]
  | .insert i value after =>
    if i < l.length then l.insertIdx (if after then i + 1 else i) value else l
  | .del i => l.eraseIdx i
  | .empty => []
  | .rewind => l.reverse

end Calls

end CppBase.DataStructures.SingleList
