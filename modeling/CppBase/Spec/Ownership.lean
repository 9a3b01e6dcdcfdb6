import CppBase.Spec.Commands

/-! The scripts by which task managers acquire, keep and give up tasks. -/

namespace CppBase.TaskStore

open CppBase.Lib

def bumpVerIfAny (key : String) : Script Unit := do
  match ← hget key (·.ver) with
  | none => pure ()
  | some v =>
    let n ← arith (tonumber (some v))
    hmset key fun h => { h with ver := some (.num (n + 1)) }

/-! `audit_task.lua` -/

structure AuditTask where
  iKey : String
  iTaskName : String
  iTmId : String
  iTmTaskList : String
  iHeartBeat : Val

structure AuditReply where
  oExisted : ℕ
  oRemoveFromTmList : ℕ
  oStopped : ℕ
  oUpdated : ℕ
  oOriginal : Option TaskHash
  oTask : Option TaskHash

def auditTask (a : AuditTask) : Script AuditReply := do
  if (← existsKey a.iKey) then
    let oOriginal ← hgetall a.iKey
    match ← hget a.iKey (·.tm) with
    | none => return ⟨1, 0, 0, 0, oOriginal, ← hgetall a.iKey⟩
    | some rTm =>
      if rTm = .str a.iTmId then
        let rOpt ← hget a.iKey (·.opt)
        if tonumber rOpt = some 0 then
          bumpVerIfAny a.iKey
          hmset a.iKey (·.release)
          hdelList a.iTmTaskList a.iTaskName
          return ⟨1, 1, 1, 0, oOriginal, ← hgetall a.iKey⟩
        else
          hsetList a.iTmTaskList a.iTaskName a.iHeartBeat
          return ⟨1, 0, 0, 1, oOriginal, ← hgetall a.iKey⟩
      else
        hdelList a.iTmTaskList a.iTaskName
        return ⟨1, 1, 0, 0, oOriginal, ← hgetall a.iKey⟩
  else
    hdelList a.iTmTaskList a.iTaskName
    return ⟨0, 1, 0, 0, none, ← hgetall a.iKey⟩

/-! `load_all_task.lua` -/

structure LoadAllTask where
  iTmId : String
  iTmTaskKeyPrefix : String
  iTaskPrefix : String

def LoadAllTask.lMyTmTaskKey (a : LoadAllTask) : String := a.iTmTaskKeyPrefix ++ a.iTmId

/-- One round of the loop. A stopped task of this manager leaves its list, but
unlike in `audit_task` its `tm` stays. -/
def loadOne (a : LoadAllTask) (taskName : String) : Script (String × Option TaskHash) := do
  let lTaskKey := a.iTaskPrefix ++ taskName
  if (← existsKey lTaskKey) then
    match ← hget lTaskKey (·.tm) with
    | none => pure ()
    | some rTm =>
      if rTm = .str a.iTmId then
        let rOpt ← hget lTaskKey (·.opt)
        if tonumber rOpt = some 0 then hdelList a.lMyTmTaskKey taskName
        bumpVerIfAny lTaskKey
      else
        hdelList a.lMyTmTaskKey taskName
  else
    hdelList a.lMyTmTaskKey taskName
  return (taskName, ← hgetall lTaskKey)

def loadAllLoop (a : LoadAllTask) : List String → Script (List (String × Option TaskHash))
  | [] => pure []
  | taskName :: rest => do
    let row ← loadOne a taskName
    let collect ← loadAllLoop a rest
    return row :: collect

/-- The even positions of the `HGETALL` reply are the task names. -/
def loadAllTask (order : ScanOrder) (a : LoadAllTask) : Script (List (String × Option TaskHash)) := do
  let results ← hgetallNames order a.lMyTmTaskKey
  loadAllLoop a results

/-! `loadbalance_preempt_task.lua`, `postponed_preempt_task.lua` and
`on_tm_notify_control.lua` differ only in the owner they take the task from. -/

structure PreemptReply where
  oExisted : ℕ
  oPreempted : ℕ
  oOriginal : Option TaskHash
  oTask : Option TaskHash

def newVer : Option Val → Script ℚ
  | none => pure 1
  | some v => do return (← arith (tonumber (some v))) + 1

/-- Take a running task that belongs to `fromTm`. -/
def takeRunning (fromTm iKey iName iMyTmId iTmTasksKey : String) (iHeartBeat : Val) :
    Script PreemptReply := do
  if (← existsKey iKey) then
    let oOriginal ← hgetall iKey
    let rTm ← hget iKey (·.tm)
    let rOpt ← hget iKey (·.opt)
    let rVer ← hget iKey (·.ver)
    if rTm = some (.str fromTm) ∧ tonumber rOpt = some 1 then
      let n ← newVer rVer
      hmset iKey fun h => { h with tm := some (.str iMyTmId), ver := some (.num n) }
      let beat ← callArg (tonumber (some iHeartBeat))
      hsetList iTmTasksKey iName beat
      return ⟨1, 1, oOriginal, ← hgetall iKey⟩
    else
      return ⟨1, 0, oOriginal, ← hgetall iKey⟩
  else
    return ⟨0, 0, none, ← hgetall iKey⟩

structure LoadbalancePreemptTask where
  iKey : String
  iName : String
  iMyTmId : String
  iOldTmId : String
  iTmTasksKey : String
  iHeartBeat : Val

def loadbalancePreemptTask (a : LoadbalancePreemptTask) : Script PreemptReply :=
  takeRunning a.iOldTmId a.iKey a.iName a.iMyTmId a.iTmTasksKey a.iHeartBeat

/-- The arguments of `postponed_preempt_task` and of `on_tm_notify_control`. -/
structure ClaimTask where
  iKey : String
  iName : String
  iMyTmId : String
  iTmTasksKey : String
  iHeartBeat : Val

def postponedPreemptTask (a : ClaimTask) : Script PreemptReply :=
  takeRunning "" a.iKey a.iName a.iMyTmId a.iTmTasksKey a.iHeartBeat

def onTmNotifyControl (a : ClaimTask) : Script PreemptReply :=
  takeRunning "" a.iKey a.iName a.iMyTmId a.iTmTasksKey a.iHeartBeat

/-! `preempt_tm_task.lua` -/

structure PreemptTmTask where
  iMyTmId : String
  iOldTmId : String
  iTmTaskKeyPrefix : String
  iTaskPrefix : String
  iHeartBeat : Val
  iDenominator : Val

def PreemptTmTask.lMyTmTaskKey (a : PreemptTmTask) : String := a.iTmTaskKeyPrefix ++ a.iMyTmId
def PreemptTmTask.lOldTmTaskKey (a : PreemptTmTask) : String := a.iTmTaskKeyPrefix ++ a.iOldTmId

structure PreemptTmReply where
  count : ℕ
  total : ℕ
  target : ℚ
  collect : List (String × Option TaskHash)

/-- One round of the second loop: the row collected, if the task was taken. -/
def preemptOne (a : PreemptTmTask) (taskName : String) :
    Script (Option (String × Option TaskHash)) := do
  let lTaskKey := a.iTaskPrefix ++ taskName
  if (← existsKey lTaskKey) then
    let rTm ← hget lTaskKey (·.tm)
    let rOpt ← hget lTaskKey (·.opt)
    if rTm = some (.str a.iOldTmId) ∧ tonumber rOpt = some 1 then
      match ← hget lTaskKey (·.ver) with
      | some v =>
        let n ← arith (tonumber (some v))
        hmset lTaskKey fun h => { h with ver := some (.num (n + 1)), tm := some (.str a.iMyTmId) }
      | none =>
        hmset lTaskKey fun h => { h with ver := some (.num 0), tm := some (.str a.iMyTmId) }
      let beat ← callArg (tonumber (some a.iHeartBeat))
      hsetList a.lMyTmTaskKey taskName beat
      return some (taskName, ← hgetall lTaskKey)
    else
      return none
  else
    return none

def preemptLoop (a : PreemptTmTask) (target : ℚ) :
    List String → ℕ → Script (ℕ × List (String × Option TaskHash))
  | [], count => pure (count, [])
  | taskName :: rest, count => do
    if (count : ℚ) < target then
      match ← preemptOne a taskName with
      | some row =>
        let (n, collect) ← preemptLoop a target rest (count + 1)
        return (n, row :: collect)
      | none => preemptLoop a target rest count
    else
      preemptLoop a target rest count

/-- A share of `total` tasks; Lua's division does not round. -/
def preemptTarget (total : ℕ) (iDenominator : ℚ) : ℚ :=
  let d := if iDenominator < 0 ∨ iDenominator = 0 then 10 else iDenominator
  if (total : ℚ) / d = 0 then total else total / d

def preemptTmTask (order : ScanOrder) (a : PreemptTmTask) : Script PreemptTmReply := do
  let results ← hgetallNames order a.lOldTmTaskKey
  match tonumber (some a.iDenominator) with
  | none => fails .comparison
  | some d =>
    let target := preemptTarget results.length d
    let (count, collect) ← preemptLoop a target results 0
    return ⟨count, results.length, target, collect⟩

/-! `on_tm_notify_update.lua` -/

structure OnTmNotifyUpdate where
  iKey : String
  iName : String
  iMyTmId : String
  iTmTasksKey : String

structure NotifyReply where
  oExisted : ℕ
  oOriginal : Option TaskHash
  oTask : Option TaskHash

def onTmNotifyUpdate (a : OnTmNotifyUpdate) : Script NotifyReply := do
  if (← existsKey a.iKey) then
    let oOriginal ← hgetall a.iKey
    let rOpt ← hget a.iKey (·.opt)
    if tonumber rOpt = some 0 then
      hmset a.iKey (·.release)
      hdelList a.iTmTasksKey a.iName
      bumpVerIfAny a.iKey
    return ⟨1, oOriginal, ← hgetall a.iKey⟩
  else
    return ⟨0, none, ← hgetall a.iKey⟩

/-! `update_task_sap.lua` -/

structure UpdateTaskSap where
  iKey : String
  iMyTm : String
  iTm : String
  iSap : Val
  iTaskId : Val

/-- The reply stops at `oUpdated` when the task does not exist. -/
structure SapReply where
  oExisted : ℕ
  oUpdated : ℕ
  oOriginal : Option TaskHash
  oTask : Option TaskHash

def updateTaskSap (a : UpdateTaskSap) : Script SapReply := do
  if (← existsKey a.iKey) then
    let oOriginal ← hgetall a.iKey
    let rTm ← hget a.iKey (·.tm)
    if rTm = some (.str a.iMyTm) then
      let rVer ← hget a.iKey (·.ver)
      let n ← arith (tonumber rVer)
      hmset a.iKey fun h =>
        { h with ver := some (.num (n + 1)), tm := some (.str a.iTm), sap := a.iSap, taskId := a.iTaskId }
      return ⟨1, 1, oOriginal, ← hgetall a.iKey⟩
    else
      return ⟨1, 0, oOriginal, ← hgetall a.iKey⟩
  else
    return ⟨0, 0, none, none⟩

/-! Calls, and the store as a machine. -/

inductive Command
  | startTask (a : StartTask)
  | stopTask (a : StopTask)
  | preStopTask (a : PreStopTask)

def Command.prog : Command → Script UpdateReply
  | .startTask a => TaskStore.startTask a
  | .stopTask a => TaskStore.stopTask a
  | .preStopTask a => TaskStore.preStopTask a

inductive Ownership
  | auditTask (a : AuditTask)
  | loadAllTask (order : ScanOrder) (a : LoadAllTask)
  | loadbalancePreemptTask (a : LoadbalancePreemptTask)
  | postponedPreemptTask (a : ClaimTask)
  | preemptTmTask (order : ScanOrder) (a : PreemptTmTask)
  | onTmNotifyControl (a : ClaimTask)
  | onTmNotifyUpdate (a : OnTmNotifyUpdate)
  | updateTaskSap (a : UpdateTaskSap)

def Ownership.prog : Ownership → Script Unit
  | .auditTask a => discard (TaskStore.auditTask a)
  | .loadAllTask order a => discard (TaskStore.loadAllTask order a)
  | .loadbalancePreemptTask a => discard (TaskStore.loadbalancePreemptTask a)
  | .postponedPreemptTask a => discard (TaskStore.postponedPreemptTask a)
  | .preemptTmTask order a => discard (TaskStore.preemptTmTask order a)
  | .onTmNotifyControl a => discard (TaskStore.onTmNotifyControl a)
  | .onTmNotifyUpdate a => discard (TaskStore.onTmNotifyUpdate a)
  | .updateTaskSap a => discard (TaskStore.updateTaskSap a)

inductive Call
  | command (c : Command)
  | ownership (c : Ownership)

/-- The outcome of a call, without its reply. -/
def Call.prog : Call → Script Unit
  | .command c => discard c.prog
  | .ownership c => c.prog

/-- The store one execution leaves behind, also when it ends in a Lua error. -/
def Call.run (c : Call) (s : Store) : Store := (exec c.prog s).2

inductive Event
  | call (c : Call)
  | expire (key : String)

def Store.next (s : Store) : Event → Store
  | .call c => c.run s
  | .expire key => s.expireKey key

end CppBase.TaskStore
