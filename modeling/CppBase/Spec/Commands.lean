import CppBase.Spec.Redis

/-! `start_task.lua`, `stop_task.lua` and `pre_stop_task.lua`: the scripts that
carry a command for one task. Arguments keep the names the scripts give them. -/

namespace CppBase.TaskStore

open CppBase.Lib

structure UpdateReply where
  oUpdated : ℕ
  oOriginal : Option TaskHash
  oTask : Option TaskHash

/-- The version check: a hash without `optVer` accepts every version. -/
def newerThan (rOptVer : Option Val) (iOptVer : Val) : Script Bool :=
  match rOptVer with
  | none => pure true
  | some v => luaLt (tonumber (some v)) (tonumber (some iOptVer))

/-- The last block of the scripts: `ver` is read back and incremented. -/
def bumpVer (key : String) : Script Unit := do
  let rVer ← hget key (·.ver)
  let n ← arith (tonumber rVer)
  hmset key fun h => { h with ver := some (.num (n + 1)) }

/-- The frame of the three scripts: the first block decides and writes, the
second one runs only if `oUpdated` came out as 1. -/
def updateWith (key : String) (decide : Script (ℕ × Option TaskHash)) (commit : Script Unit) :
    Script UpdateReply := do
  let (oUpdated, oOriginal) ← decide
  if oUpdated = 1 then commit
  return ⟨oUpdated, oOriginal, ← hgetall key⟩

structure StartTask where
  iOptVer : Val
  iKey : String
  iName : String
  iAppId : Val
  iSid : Val
  iType : Val
  iParam : Val
  iAllTaskKey : String
  iIdle : Val
  iMyTm : String
  iMyTmKey : String
  iHeartBeat : Val
  iTransient : Val
  iTimeoutStop : Val
  iCmdType : Val

def StartTask.write (a : StartTask) (h : TaskHash) : TaskHash :=
  { h with
    optVer := a.iOptVer, opt := some (.num 1), taskParam := a.iParam, taskType := a.iType,
    appId := a.iAppId, sid := a.iSid, transient := a.iTransient, heartbeat := a.iHeartBeat,
    timeout := a.iTimeoutStop, preStop := some (.num 0), stopReason := some (.num 0) }

def TaskHash.unowned (h : TaskHash) : TaskHash :=
  { h with tm := some (.str ""), sap := some (.str ""), ver := some (.num 0), taskId := some (.str "") }

/-- `canCreate or canUpdate` for the command type and the two fields read. -/
def startAllowed (iCmdType rOpt rPreStop : Option ℚ) : Bool :=
  let canCreate := iCmdType = some 0 ∨ (iCmdType = some 1 ∧ (rOpt = some 0 ∨ rPreStop ≠ some 0))
  let canUpdate := iCmdType = some 0 ∨ (iCmdType = some 2 ∧ rOpt ≠ some 0 ∧ rPreStop = some 0)
  decide (canCreate ∨ canUpdate)

def startDecide (a : StartTask) : Script (ℕ × Option TaskHash) := do
  let iCmdType := tonumber a.iCmdType
  if (← existsKey a.iKey) then
    let oOriginal ← hgetall a.iKey
    let rOptVer ← hget a.iKey (·.optVer)
    let rOpt ← hget a.iKey (·.opt)
    let rPreStop ← hget a.iKey (·.preStop)
    let newer ← newerThan rOptVer a.iOptVer
    if newer && startAllowed iCmdType (tonumber rOpt) (tonumber rPreStop) then
      hmset a.iKey a.write
      return (1, oOriginal)
    else
      return (0, oOriginal)
  else if iCmdType = some 0 ∨ iCmdType = some 1 then
    hmset a.iKey fun h => (a.write h).unowned
    let oOriginal ← hgetall a.iKey
    return (1, oOriginal)
  else
    return (0, none)

def startCommit (a : StartTask) : Script Unit := do
  expire a.iKey 2592000
  sadd a.iAllTaskKey a.iName
  let rTm ← hget a.iKey (·.tm)
  if rTm = some (.str "") ∧ tonumber (some a.iIdle) = some 1 then
    hmset a.iKey fun h => { h with tm := some (.str a.iMyTm) }
    hsetList a.iMyTmKey a.iName a.iHeartBeat
  bumpVer a.iKey

def startTask (a : StartTask) : Script UpdateReply := updateWith a.iKey (startDecide a) (startCommit a)

structure StopTask where
  iOptVer : Val
  iKey : String
  iName : String
  iType : Val
  iAllTaskKey : String
  iMyTm : String
  iMyTmKey : String
  iInternal : Val
  iCmdType : Val

/-- The fields every stop writes; only an external one also writes `optVer`. -/
def StopTask.write (a : StopTask) (h : TaskHash) : TaskHash :=
  { h with
    opt := some (.num 0), taskParam := some (.str ""), taskType := a.iType, appId := some (.num 0),
    sid := some (.num 0), preStop := some (.num 0), stopReason := some (.num 0) }

def StopTask.writeVersioned (a : StopTask) (h : TaskHash) : TaskHash :=
  { a.write h with optVer := a.iOptVer }

def stopDecide (a : StopTask) : Script (ℕ × Option TaskHash) := do
  let iCmdType := tonumber a.iCmdType
  if (← existsKey a.iKey) then
    let oOriginal ← hgetall a.iKey
    if tonumber (some a.iInternal) = some 0 then
      let rOptVer ← hget a.iKey (·.optVer)
      let rOpt ← hget a.iKey (·.opt)
      let canStop := decide (iCmdType = some 0 ∨ (iCmdType = some 3 ∧ tonumber rOpt = some 1))
      let newer ← newerThan rOptVer a.iOptVer
      if newer && canStop then
        hmset a.iKey a.writeVersioned
        return (1, oOriginal)
      else
        return (0, oOriginal)
    else
      hmset a.iKey a.write
      return (1, oOriginal)
  else if iCmdType = some 0 then
    hmset a.iKey fun h => (a.writeVersioned h).unowned
    let oOriginal ← hgetall a.iKey
    return (1, oOriginal)
  else
    return (0, none)

def TaskHash.release (h : TaskHash) : TaskHash :=
  { h with tm := some (.str ""), sap := some (.str ""), taskId := some (.str "") }

def stopCommit (a : StopTask) : Script Unit := do
  expire a.iKey 60
  srem a.iAllTaskKey a.iName
  let rTm ← hget a.iKey (·.tm)
  if rTm = some (.str a.iMyTm) then
    hmset a.iKey (·.release)
    hdelList a.iMyTmKey a.iName
  bumpVer a.iKey

def stopTask (a : StopTask) : Script UpdateReply := updateWith a.iKey (stopDecide a) (stopCommit a)

structure PreStopTask where
  iOptVer : Val
  iKey : String
  iInternal : Val
  iPreStop : Val
  iStopReason : Val
  iType : Val
  iCmdType : Val

/-- A pre-stop already under way keeps its `preStop`. -/
def nowPreStop (rPreStop : Option Val) (iPreStop : Val) : Val :=
  match rPreStop with
  | none => iPreStop
  | some v => if tonumber (some v) ≠ some 0 then v else iPreStop

def PreStopTask.write (a : PreStopTask) (now : Val) (h : TaskHash) : TaskHash :=
  { h with preStop := now, stopReason := a.iStopReason }

/-- The hash a pre-stop creates is that of a stopped task. -/
def PreStopTask.create (a : PreStopTask) (h : TaskHash) : TaskHash :=
  { h.unowned with
    optVer := a.iOptVer, opt := some (.num 0), taskParam := some (.str ""), taskType := a.iType,
    appId := some (.num 0), sid := some (.num 0), preStop := some (.num 0), stopReason := some (.num 0) }

def preStopDecide (a : PreStopTask) : Script (ℕ × Option TaskHash) := do
  let iCmdType := tonumber a.iCmdType
  if (← existsKey a.iKey) then
    let oOriginal ← hgetall a.iKey
    let rOptVer ← hget a.iKey (·.optVer)
    let rOpt ← hget a.iKey (·.opt)
    let rPreStop ← hget a.iKey (·.preStop)
    let now := nowPreStop rPreStop a.iPreStop
    if tonumber (some a.iInternal) = some 0 then
      let canStop := decide (iCmdType = some 0 ∨
        (iCmdType = some 3 ∧ tonumber rOpt = some 1 ∧ tonumber rPreStop = some 0))
      let newer ← newerThan rOptVer a.iOptVer
      if newer && canStop then
        hmset a.iKey fun h => { a.write now h with optVer := a.iOptVer }
        return (1, oOriginal)
      else
        return (0, oOriginal)
    else
      hmset a.iKey (a.write now)
      return (1, oOriginal)
  else if iCmdType = some 0 then
    hmset a.iKey a.create
    expire a.iKey 60
    let oOriginal ← hgetall a.iKey
    return (1, oOriginal)
  else
    return (0, none)

def preStopTask (a : PreStopTask) : Script UpdateReply := updateWith a.iKey (preStopDecide a) (bumpVer a.iKey)

end CppBase.TaskStore
