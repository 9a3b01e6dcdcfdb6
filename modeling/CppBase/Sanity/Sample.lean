import CppBase.Spec.Ownership

/-! A small deployment for concrete runs: task keys are `task:` and the name,
list keys are `tm:` and the manager's id, the all-task set is `all`. -/

namespace CppBase.TaskStore.Sample

def start (tm name : String) (v : ℚ) : StartTask :=
  { iOptVer := .num v, iKey := "task:" ++ name, iName := name, iAppId := .num 7, iSid := .num 8,
    iType := .str "mix", iParam := .str "p", iAllTaskKey := "all", iIdle := .num 1, iMyTm := tm,
    iMyTmKey := "tm:" ++ tm, iHeartBeat := .num 100, iTransient := .num 0, iTimeoutStop := .num 0,
    iCmdType := .num 0 }

def stop (tm name : String) (v : ℚ) : StopTask :=
  { iOptVer := .num v, iKey := "task:" ++ name, iName := name, iType := .str "mix",
    iAllTaskKey := "all", iMyTm := tm, iMyTmKey := "tm:" ++ tm, iInternal := .num 0, iCmdType := .num 0 }

def inOrder : ScanOrder := ⟨id, fun _ => List.Perm.refl _⟩

def loadAll (tm : String) : LoadAllTask := { iTmId := tm, iTmTaskKeyPrefix := "tm:", iTaskPrefix := "task:" }

def startCall (tm name : String) (v : ℚ) : Call := .command (.startTask (start tm name v))
def stopCall (tm name : String) (v : ℚ) : Call := .command (.stopTask (stop tm name v))
def loadAllCall (tm : String) : Call := .ownership (.loadAllTask inOrder (loadAll tm))

end CppBase.TaskStore.Sample
