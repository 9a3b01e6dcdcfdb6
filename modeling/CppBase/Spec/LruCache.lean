import Mathlib.Data.List.AList
import CppBase.Lib.Fallible

/-! `utility/lrucache.h`. A node of `_list` has an address that never changes; a
list iterator is an address, or nothing for `end()`. An iterator into `_map` is
the key of its entry. Dereferencing an iterator whose node or entry is gone is
an error here and undefined behaviour there. -/

namespace CppBase.Utility

structure Node (K V : Type) where
  address : ℕ
  key : K
  value : V
  deriving DecidableEq

abbrev ListIterator := Option ℕ

structure LruCache (K V : Type) where
  list : List (Node K V)
  map : AList fun _ : K => ListIterator
  capacity : ℕ
  nextAddress : ℕ

namespace LruCache

inductive Fault
  | invalidIterator
  deriving DecidableEq

variable {K V : Type} [DecidableEq K]

def create (capacity : ℕ) : LruCache K V := ⟨[], ∅, capacity, 0⟩

section Containers

def begin (s : LruCache K V) : ListIterator := s.list.head?.map Node.address

def node? (s : LruCache K V) (it : ListIterator) : Option (Node K V) := s.list.find? fun n => some n.address = it

def deref (s : LruCache K V) (it : ListIterator) : Except Fault (Node K V) :=
  match s.node? it with
  | some n => .ok n
  | none => .error .invalidIterator

def second (s : LruCache K V) (key : K) : Except Fault ListIterator :=
  match s.map.lookup key with
  | some it => .ok it
  | none => .error .invalidIterator

def pushFront (s : LruCache K V) (key : K) (value : V) : LruCache K V :=
  { s with list := ⟨s.nextAddress, key, value⟩ :: s.list, nextAddress := s.nextAddress + 1 }

def listErase (s : LruCache K V) (it : ListIterator) : Except Fault (LruCache K V) := do
  let _ ← s.deref it
  .ok { s with list := s.list.filter fun n => some n.address ≠ it }

def popBack (s : LruCache K V) : LruCache K V := { s with list := s.list.dropLast }

/-- `_list.splice(_list.begin(), _list, it)`. -/
def spliceFront (s : LruCache K V) (it : ListIterator) : Except Fault (LruCache K V) := do
  let n ← s.deref it
  .ok { s with list := n :: s.list.filter fun n => some n.address ≠ it }

def mapErase (s : LruCache K V) (key : K) : LruCache K V := { s with map := s.map.erase key }

end Containers

def size (s : LruCache K V) : ℕ := s.map.keys.length

def put (s : LruCache K V) (key : K) (value : V) : Except Fault (LruCache K V) := do
  let t := s.pushFront key value
  let t ←
    if key ∈ s.map then do
      let u ← t.listErase (← t.second key)
      .ok (u.mapErase key)
    else .ok t
  let t := { t with map := t.map.insert key t.begin }
  if t.size > t.capacity then
    match t.list.getLast? with
    | some last => .ok (t.mapErase last.key).popBack
    | none => .error .invalidIterator
  else .ok t

/-- `.error` inside where `std::range_error` is thrown, with its text. -/
def get (s : LruCache K V) (key : K) : Except Fault (Except String V × LruCache K V) :=
  if key ∈ s.map then do
    let t ← s.spliceFront (← s.second key)
    let n ← t.deref (← t.second key)
    .ok (.ok n.value, t)
  else .ok (.error "There is no such key in cache", s)

def getIter (s : LruCache K V) (key : K) : Except Fault (ListIterator × LruCache K V) :=
  if key ∈ s.map then do
    let t ← s.spliceFront (← s.second key)
    .ok (← t.second key, t)
  else .ok (none, s)

def find (s : LruCache K V) (key : K) : Except Fault ListIterator :=
  if key ∈ s.map then s.second key else .ok none

def existsKey (s : LruCache K V) (key : K) : Bool := key ∈ s.map

/-- The entry is erased from `_map` first, and its iterator dereferenced then. -/
def erase (s : LruCache K V) (key : K) : Except Fault (ℕ × LruCache K V) :=
  if key ∈ s.map then do
    let t := s.mapErase key
    let u ← t.listErase (← t.second key)
    .ok (1, u)
  else .ok (0, s)

def clear (s : LruCache K V) : LruCache K V := { s with map := ∅, list := [] }

section Calls

inductive Op (K V : Type)
  | put (key : K) (value : V)
  | get (key : K)
  | getIter (key : K)
  | find (key : K)
  | existsKey (key : K)
  | erase (key : K)
  | clear

inductive Answer (K V : Type)
  | nothing
  | value (v : V)
  | thrown (what : String)
  | entry (e : Option (K × V))
  | bool (b : Bool)
  | count (n : ℕ)
  deriving DecidableEq

def entryAt (s : LruCache K V) (it : ListIterator) : Option (K × V) := (s.node? it).map fun n => (n.key, n.value)

def call (s : LruCache K V) : Op K V → Except Fault (Answer K V × LruCache K V)
  | .put key value => do
    .ok (.nothing, ← s.put key value)
  | .get key => do
    match ← s.get key with
    | (.ok v, t) => .ok (.value v, t)
    | (.error what, t) => .ok (.thrown what, t)
  | .getIter key => do
    let (it, t) ← s.getIter key
    .ok (.entry (t.entryAt it), t)
  | .find key => do
    .ok (.entry (s.entryAt (← s.find key)), s)
  | .existsKey key => .ok (.bool (s.existsKey key), s)
  | .erase key => do
    let (n, t) ← s.erase key
    .ok (.count n, t)
  | .clear => .ok (.nothing, s.clear)

/-- A call, with the answers so far. -/
def step (s : LruCache K V × List (Answer K V)) (op : Op K V) :
    Except Fault (LruCache K V × List (Answer K V)) := do
  let (answer, t) ← s.1.call op
  .ok (t, s.2 ++ [answer])

end Calls

end LruCache

end CppBase.Utility
