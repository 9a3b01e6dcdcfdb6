import CppBase.Sanity.Primitives

/-! What one execution of an ownership script on a single task can do to the
store: one inversion lemma for each script. -/

namespace CppBase.TaskStore

open CppBase.Lib

/-- The hash of a task taken by `my`; `d` is the version given to a hash that has none. -/
def TaskHash.takenBy (h : TaskHash) (my : String) (d : ℚ) : TaskHash :=
  { h with tm := some (.str my), ver := some (.num ((tonumber h.ver).elim d (· + 1))) }

/-- Incrementing `ver` where there is one; it fails only on a `ver` that is no number. -/
theorem exec_bumpVerIfAny {key : String} {s : Store} {h : TaskHash} (hs : s.task key = some h) :
    exec (bumpVerIfAny key) s = (.ok (), s.setTask key h.bump) ∨
      (tonumber h.ver = none ∧ h.ver ≠ none ∧ exec (bumpVerIfAny key) s = (.error .arithmetic, s)) := by
  unfold bumpVerIfAny TaskHash.bump
  simp only [exec_bind, exec_hget, hs, Option.bind_some]
  cases hv : h.ver with
  | none => left; simp [setTask_self key s hs]
  | some v =>
    cases hn : tonumber (some v) with
    | none => right; simp [exec_bind, hn]
    | some n => left; simp [hn, hs]

theorem exec_newVer (h : TaskHash) (s : Store) :
    exec (newVer h.ver) s = (.ok ((tonumber h.ver).elim 1 (· + 1)), s) ∨
      (tonumber h.ver = none ∧ h.ver ≠ none ∧ exec (newVer h.ver) s = (.error .arithmetic, s)) := by
  cases hv : h.ver with
  | none => left; rfl
  | some v =>
    unfold newVer
    cases hn : tonumber (some v) with
    | none => right; simp [exec_map, hn]
    | some n => left; simp [hn]

section OneKey

variable {s : Store}

theorem auditTask_cases (a : AuditTask) :
    (s.task a.iKey = none ∧ (exec (auditTask a) s).2 = s.listDel a.iTmTaskList a.iTaskName) ∨
    ∃ h, s.task a.iKey = some h ∧
      ((exec (auditTask a) s).2 = s ∨
      (h.tm ≠ some (.str a.iTmId) ∧ (exec (auditTask a) s).2 = s.listDel a.iTmTaskList a.iTaskName) ∨
      (h.tm = some (.str a.iTmId) ∧ tonumber h.opt = some 0 ∧
        (exec (auditTask a) s).2 =
          (s.setTask a.iKey h.bump.release).listDel a.iTmTaskList a.iTaskName) ∨
      (h.tm = some (.str a.iTmId) ∧ tonumber h.opt ≠ some 0 ∧
        (exec (auditTask a) s).2 = s.listSet a.iTmTaskList a.iTaskName a.iHeartBeat)) := by
  unfold auditTask
  simp only [exec_bind, exec_existsKey, exec_hgetall, exec_hget, exec_ite, exec_hdelList]
  cases hs : s.task a.iKey with
  | none => left; simp
  | some h =>
    right
    refine ⟨h, rfl, ?_⟩
    simp only [Option.isSome_some, if_true, Option.bind_some]
    cases ht : h.tm with
    | none => left; simp [exec_map]
    | some t =>
      by_cases hm : t = .str a.iTmId
      · by_cases ho : tonumber h.opt = some 0
        · rcases exec_bumpVerIfAny hs with hb | ⟨-, -, hb⟩
          · right; right; left
            simp [hm, ho, exec_bind, hs, hb, exec_map]
          · left
            simp [hm, ho, exec_bind, hs, hb]
        · right; right; right
          simp [hm, ho, exec_bind, hs, exec_map]
      · right; left
        simp [hm, exec_bind, exec_map]

theorem takeRunning_cases (fromTm iKey iName iMyTmId iTmTasksKey : String) (iHeartBeat : Val) :
    (exec (takeRunning fromTm iKey iName iMyTmId iTmTasksKey iHeartBeat) s).2 = s ∨
    ∃ h, s.task iKey = some h ∧ h.tm = some (.str fromTm) ∧ tonumber h.opt = some 1 ∧
      ((tonumber (some iHeartBeat) = none ∧
        (exec (takeRunning fromTm iKey iName iMyTmId iTmTasksKey iHeartBeat) s).2 =
          s.setTask iKey (h.takenBy iMyTmId 1)) ∨
      ∃ q, (exec (takeRunning fromTm iKey iName iMyTmId iTmTasksKey iHeartBeat) s).2 =
        (s.setTask iKey (h.takenBy iMyTmId 1)).listSet iTmTasksKey iName (.num q)) := by
  unfold takeRunning
  simp only [exec_bind, exec_existsKey, exec_hgetall, exec_hget, exec_ite]
  cases hs : s.task iKey with
  | none => left; simp
  | some h =>
    simp only [Option.isSome_some, if_true, Option.bind_some]
    by_cases hg : h.tm = some (.str fromTm) ∧ tonumber h.opt = some 1
    · rcases exec_newVer h s with hn | ⟨-, -, hn⟩
      · right
        refine ⟨h, rfl, hg.1, hg.2, ?_⟩
        cases hq : tonumber (some iHeartBeat) with
        | none =>
          left
          simp [hg, hn, hs, TaskHash.takenBy]
        | some q =>
          right
          exact ⟨q, by simp [hg, hn, hs, TaskHash.takenBy]⟩
      · left; simp [hg, hn]
    · left; simp [hg]

theorem onTmNotifyUpdate_cases (a : OnTmNotifyUpdate) :
    (exec (onTmNotifyUpdate a) s).2 = s ∨
    ∃ h, s.task a.iKey = some h ∧ tonumber h.opt = some 0 ∧
      (exec (onTmNotifyUpdate a) s).2 = (s.setTask a.iKey h.release.bump).listDel a.iTmTasksKey a.iName := by
  unfold onTmNotifyUpdate
  simp only [exec_bind, exec_existsKey, exec_hgetall, exec_hget, exec_hmset, exec_hdelList, exec_ite]
  cases hs : s.task a.iKey with
  | none => left; simp
  | some h =>
    simp only [Option.isSome_some, if_true, Option.bind_some, Option.getD_some]
    by_cases ho : tonumber h.opt = some 0
    · right
      refine ⟨h, rfl, ho, ?_⟩
      set t := (s.setTask a.iKey h.release).listDel a.iTmTasksKey a.iName with ht
      have htask : t.task a.iKey = some h.release := by simp [ht]
      have hcommute : t.setTask a.iKey h.release.bump =
          (s.setTask a.iKey h.release.bump).listDel a.iTmTasksKey a.iName := by
        simp [ht, Store.setTask, Store.listDel]
      rcases exec_bumpVerIfAny htask with hb | ⟨hv, -, hb⟩
      · simp [ho, hb, hcommute]
      · have hsame : h.release.bump = h.release := by simp only [TaskHash.bump, hv]
        rw [← hcommute, hsame, setTask_self _ _ htask]
        simp [ho, hb]
    · left; simp [ho]

def UpdateTaskSap.write (a : UpdateTaskSap) (n : ℚ) (h : TaskHash) : TaskHash :=
  { h with ver := some (.num (n + 1)), tm := some (.str a.iTm), sap := a.iSap, taskId := a.iTaskId }

theorem updateTaskSap_cases (a : UpdateTaskSap) :
    (exec (updateTaskSap a) s).2 = s ∨
    ∃ h n, s.task a.iKey = some h ∧ h.tm = some (.str a.iMyTm) ∧ tonumber h.ver = some n ∧
      (exec (updateTaskSap a) s).2 = s.setTask a.iKey (a.write n h) := by
  unfold updateTaskSap
  simp only [exec_bind, exec_existsKey, exec_hgetall, exec_hget, exec_ite]
  cases hs : s.task a.iKey with
  | none => left; simp
  | some h =>
    simp only [Option.isSome_some, if_true, Option.bind_some]
    by_cases ht : h.tm = some (.str a.iMyTm)
    · cases hn : tonumber h.ver with
      | none => left; simp [ht]
      | some n =>
        right
        exact ⟨h, n, rfl, ht, hn, by simp [ht, hs, UpdateTaskSap.write]⟩
    · left; simp [ht]

end OneKey

end CppBase.TaskStore
