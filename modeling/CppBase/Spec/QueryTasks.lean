import CppBase.Spec.Redis
import Mathlib.Data.Finset.Sort
import Mathlib.Data.String.Basic

/-! `query_tasks.lua`, which lists the tasks of an application and a type. -/

namespace CppBase.TaskStore

open CppBase.Lib

/-- `SMEMBERS` does not promise an order either. -/
def smembers (order : ScanOrder) (key : String) : Script (List String) :=
  gets fun s => order.run ((s.names key).sort (· ≤ ·))

structure QueryTasks where
  iTaskSetKey : String
  iTaskPrefix : String
  iAppid : Val
  iType : Val

/-- A missing field stays `"invalid"`; `ipairs` goes on behind it, since it is read as `false`. -/
def queryLoop (a : QueryTasks) : List String → Script (List String)
  | [] => pure []
  | taskName :: rest => do
    let rAppid ← hget (a.iTaskPrefix ++ taskName) (·.appId)
    let rTaskType ← hget (a.iTaskPrefix ++ taskName) (·.taskType)
    let collect ← queryLoop a rest
    return if rAppid.getD (.str "invalid") = a.iAppid ∧ rTaskType.getD (.str "invalid") = a.iType then
      taskName :: collect
    else collect

def queryTasks (order : ScanOrder) (a : QueryTasks) : Script (List String) := do
  let results ← smembers order a.iTaskSetKey
  queryLoop a results

end CppBase.TaskStore
