import Mathlib.Data.Finset.Basic
import Mathlib.Algebra.Order.Field.Rat
import Mathlib.Data.List.AList
import CppBase.Lib.Exec

/-! The part of Redis and of its Lua host that the task scripts use.

Task hashes, the task lists of the task managers and the name sets live in
disjoint key namespaces, so the keyspace is three maps. A script runs
atomically; a Lua error stops it but does not undo the commands already
executed. Lua numbers are doubles; here they are exact. -/

namespace CppBase.TaskStore

open CppBase.Lib

/-- A Redis string. `num q` is the text that Lua writes for the number, `numeral` any other text that
`tonumber` reads as it, such as `07` for 7; the rest is `str`. Texts are equal if all of it is. -/
inductive Val
  | num (q : ℚ)
  | numeral (q : ℚ) (text : String)
  | str (s : String)
  deriving DecidableEq

/-- Lua's `tonumber`, where `none` is `nil` (or the `false` that a missing
field is read as). -/
def tonumber : Option Val → Option ℚ
  | some (.num q) | some (.numeral q _) => some q
  | _ => none

@[simp] theorem tonumber_num (q : ℚ) : tonumber (some (.num q)) = some q := rfl
@[simp] theorem tonumber_numeral (q : ℚ) (text : String) : tonumber (some (.numeral q text)) = some q := rfl
@[simp] theorem tonumber_str (s : String) : tonumber (some (.str s)) = none := rfl
@[simp] theorem tonumber_none : tonumber none = none := rfl

/-- A task hash. `none` is a field the hash does not have. -/
structure TaskHash where
  optVer : Option Val := none
  opt : Option Val := none
  taskParam : Option Val := none
  taskType : Option Val := none
  appId : Option Val := none
  sid : Option Val := none
  tm : Option Val := none
  sap : Option Val := none
  ver : Option Val := none
  taskId : Option Val := none
  transient : Option Val := none
  heartbeat : Option Val := none
  timeout : Option Val := none
  preStop : Option Val := none
  stopReason : Option Val := none
  deriving DecidableEq

abbrev TmList := AList fun _ : String => Val

structure Store where
  task : String → Option TaskHash
  ttl : String → Option ℕ
  tmTasks : String → TmList
  names : String → Finset String

def Store.empty : Store := ⟨fun _ => none, fun _ => none, fun _ => ∅, fun _ => ∅⟩

/-- `nil + 1`, `nil < 1`, and a `nil` among the arguments of `redis.call`. -/
inductive LuaError
  | arithmetic
  | comparison
  | badArgument
  deriving DecidableEq

abbrev Script := Prog LuaError Store

def arith : Option ℚ → Script ℚ
  | some q => pure q
  | none => fails .arithmetic

def luaLt : Option ℚ → Option ℚ → Script Bool
  | some x, some y => pure (decide (x < y))
  | _, _ => fails .comparison

def callArg : Option ℚ → Script Val
  | some q => pure (.num q)
  | none => fails .badArgument

/-! Task hashes. -/

def existsKey (key : String) : Script Bool := gets fun s => (s.task key).isSome

def hget (key : String) (field : TaskHash → Option Val) : Script (Option Val) :=
  gets fun s => (s.task key).bind field

/-- `HGETALL`; `none` stands for the empty reply. -/
def hgetall (key : String) : Script (Option TaskHash) := gets fun s => s.task key

def Store.setTask (s : Store) (key : String) (h : TaskHash) : Store :=
  { s with task := Function.update s.task key (some h) }

/-- `HMSET`, which creates a missing hash. -/
def hmset (key : String) (write : TaskHash → TaskHash) : Script Unit :=
  modifies fun s => s.setTask key (write ((s.task key).getD {}))

/-- `EXPIRE`, which does nothing to a missing key. -/
def expire (key : String) (seconds : ℕ) : Script Unit :=
  modifies fun s =>
    if (s.task key).isSome then { s with ttl := Function.update s.ttl key (some seconds) } else s

def Store.expireKey (s : Store) (key : String) : Store :=
  { s with task := Function.update s.task key none, ttl := Function.update s.ttl key none }

/-! Task lists and name sets. -/

def Store.listSet (s : Store) (key name : String) (v : Val) : Store :=
  { s with tmTasks := Function.update s.tmTasks key ((s.tmTasks key).insert name v) }

def Store.listDel (s : Store) (key name : String) : Store :=
  { s with tmTasks := Function.update s.tmTasks key ((s.tmTasks key).erase name) }

def hsetList (key name : String) (v : Val) : Script Unit := modifies fun s => s.listSet key name v

def hdelList (key name : String) : Script Unit := modifies fun s => s.listDel key name

/-- `HGETALL` does not promise an order; a `ScanOrder` is the one it happened
to use in one execution. -/
structure ScanOrder where
  run : List String → List String
  perm : ∀ l, (run l).Perm l

def hgetallNames (order : ScanOrder) (key : String) : Script (List String) :=
  gets fun s => order.run (s.tmTasks key).keys

def sadd (key name : String) : Script Unit :=
  modifies fun s => { s with names := Function.update s.names key (insert name (s.names key)) }

def srem (key name : String) : Script Unit :=
  modifies fun s => { s with names := Function.update s.names key ((s.names key).erase name) }

end CppBase.TaskStore
