import CppBase.Spec.Ownership

/-! Symbolic execution of the Redis commands and of the blocks the scripts share. -/

namespace CppBase.TaskStore

open CppBase.Lib

section Primitives

variable (key : String) (s : Store)

@[simp] theorem exec_existsKey : exec (existsKey key) s = (.ok (s.task key).isSome, s) := rfl

@[simp] theorem exec_hget (f : TaskHash → Option Val) :
    exec (hget key f) s = (.ok ((s.task key).bind f), s) := rfl

@[simp] theorem exec_hgetall : exec (hgetall key) s = (.ok (s.task key), s) := rfl

@[simp] theorem exec_hmset (w : TaskHash → TaskHash) :
    exec (hmset key w) s = (.ok (), s.setTask key (w ((s.task key).getD {}))) := rfl

@[simp] theorem exec_hsetList (name : String) (v : Val) :
    exec (hsetList key name v) s = (.ok (), s.listSet key name v) := rfl

@[simp] theorem exec_hdelList (name : String) :
    exec (hdelList key name) s = (.ok (), s.listDel key name) := rfl

@[simp] theorem setTask_task (h : TaskHash) : (s.setTask key h).task = Function.update s.task key (some h) := rfl
@[simp] theorem setTask_tmTasks (h : TaskHash) : (s.setTask key h).tmTasks = s.tmTasks := rfl
@[simp] theorem setTask_names (h : TaskHash) : (s.setTask key h).names = s.names := rfl
@[simp] theorem listSet_task (name : String) (v : Val) : (s.listSet key name v).task = s.task := rfl
@[simp] theorem listSet_names (name : String) (v : Val) : (s.listSet key name v).names = s.names := rfl
@[simp] theorem listDel_task (name : String) : (s.listDel key name).task = s.task := rfl
@[simp] theorem listDel_names (name : String) : (s.listDel key name).names = s.names := rfl

@[simp] theorem arith_some (q : ℚ) : arith (some q) = pure q := rfl
@[simp] theorem arith_none : arith none = fails .arithmetic := rfl
@[simp] theorem callArg_some (q : ℚ) : callArg (some q) = pure (.num q) := rfl
@[simp] theorem callArg_none : callArg none = fails .badArgument := rfl

theorem setTask_self {h : TaskHash} (hs : s.task key = some h) : s.setTask key h = s := by
  unfold Store.setTask
  rw [← hs, Function.update_eq_self]

@[simp] theorem setTask_setTask (h h' : TaskHash) : (s.setTask key h).setTask key h' = s.setTask key h' := by
  simp [Store.setTask]

end Primitives

/-- `ver` incremented, where it is a number. -/
def TaskHash.bump (h : TaskHash) : TaskHash :=
  match tonumber h.ver with
  | none => h
  | some n => { h with ver := some (.num (n + 1)) }

def bumpResult (h : TaskHash) : Except LuaError Unit :=
  match tonumber h.ver with
  | none => .error .arithmetic
  | some _ => .ok ()

theorem exec_bumpVer {key : String} {s : Store} {h : TaskHash} (hs : s.task key = some h) :
    exec (bumpVer key) s = (bumpResult h, s.setTask key h.bump) := by
  unfold bumpVer bumpResult TaskHash.bump
  simp only [exec_bind, exec_hget, hs, Option.bind_some]
  cases hv : tonumber h.ver with
  | none => simp [setTask_self key s hs]
  | some n => simp [hs]

def versionOk (rOptVer : Option Val) (iOptVer : Val) : Bool :=
  match rOptVer with
  | none => true
  | some v =>
    match tonumber (some v), tonumber (some iOptVer) with
    | some x, some y => decide (x < y)
    | _, _ => false

/-- A version to compare with, where one of the two is not a number. -/
def Incomparable (rOptVer : Option Val) (iOptVer : Val) : Prop :=
  rOptVer ≠ none ∧ (tonumber rOptVer = none ∨ tonumber (some iOptVer) = none)

/-- The check has no effect; it fails on a version that is not a number. -/
theorem exec_newerThan (r : Option Val) (v : Val) (s : Store) :
    exec (newerThan r v) s = (.ok (versionOk r v), s) ∨
      (versionOk r v = false ∧ Incomparable r v ∧ exec (newerThan r v) s = (.error .comparison, s)) := by
  unfold newerThan versionOk luaLt Incomparable
  cases r with
  | none => left; rfl
  | some w =>
    cases hw : tonumber (some w) <;> cases hv : tonumber (some v) <;> simp [hw]

theorem versionOk_some {w v : Val} {x y : ℚ} (hx : tonumber (some w) = some x)
    (hy : tonumber (some v) = some y) : versionOk (some w) v = decide (x < y) := by
  simp only [versionOk, hx, hy]

theorem lt_of_versionOk {w v : Val} (h : versionOk (some w) v = true) :
    ∃ x y, tonumber (some w) = some x ∧ tonumber (some v) = some y ∧ x < y := by
  unfold versionOk at h
  cases hw : tonumber (some w) <;> cases hv : tonumber (some v) <;> simp [hw, hv] at h
  exact ⟨_, _, rfl, rfl, h⟩

theorem exec_updateWith {key : String} {d : Script (ℕ × Option TaskHash)} {m : Script Unit}
    {s t : Store} {n : ℕ} {o : Option TaskHash} (hd : exec d s = (.ok (n, o), t)) :
    exec (updateWith key d m) s =
      if n = 1 then
        match exec m t with
        | (.ok _, u) => (.ok ⟨n, o, u.task key⟩, u)
        | (.error e, u) => (.error e, u)
      else (.ok ⟨n, o, t.task key⟩, t) := by
  unfold updateWith
  rw [exec_bind_ok hd]
  by_cases hn : n = 1
  · simp only [hn, if_true, exec_bind]
    obtain ⟨r, u⟩ := exec m t
    cases r <;> simp
  · simp [hn, exec_map]

end CppBase.TaskStore
