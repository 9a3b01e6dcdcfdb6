import CppBase.Sanity.Primitives

/-! What one execution of `start_task`, `stop_task` or `pre_stop_task` does to
the store, as a function of the task hash it finds. `written` is the hash its
first block writes, if it accepts; `commit` is the store it then leaves. -/

namespace CppBase.TaskStore

open CppBase.Lib

section Start

variable (a : StartTask)

def StartTask.written : Option TaskHash → Option TaskHash
  | none =>
    if tonumber (some a.iCmdType) = some 0 ∨ tonumber (some a.iCmdType) = some 1 then
      some (a.write {}).unowned
    else none
  | some h =>
    if versionOk h.optVer a.iOptVer &&
        startAllowed (tonumber (some a.iCmdType)) (tonumber h.opt) (tonumber h.preStop) then
      some (a.write h)
    else none

/-- A start takes the task if nobody owns it and the caller says it is idle. -/
def StartTask.Acquires (h : TaskHash) : Prop :=
  h.tm = some (.str "") ∧ tonumber (some a.iIdle) = some 1

instance (h : TaskHash) : Decidable (a.Acquires h) := inferInstanceAs (Decidable (_ ∧ _))

def StartTask.settle (h : TaskHash) : TaskHash :=
  (if a.Acquires h then { h with tm := some (.str a.iMyTm) } else h).bump

def StartTask.commit (h : TaskHash) (s : Store) : Store where
  task := Function.update s.task a.iKey (some (a.settle h))
  ttl := Function.update s.ttl a.iKey (some 2592000)
  tmTasks :=
    if a.Acquires h then (s.listSet a.iMyTmKey a.iName a.iHeartBeat).tmTasks else s.tmTasks
  names := Function.update s.names a.iAllTaskKey (insert a.iName (s.names a.iAllTaskKey))

theorem startDecide_rejects {s : Store} (hw : a.written (s.task a.iKey) = none) :
    (∃ o, exec (startDecide a) s = (.ok (0, o), s)) ∨
      ((∃ h, s.task a.iKey = some h ∧ Incomparable h.optVer a.iOptVer) ∧
        exec (startDecide a) s = (.error .comparison, s)) := by
  unfold startDecide
  simp only [exec_bind, exec_existsKey, exec_hget, exec_hgetall, exec_hmset, exec_pure, exec_ite]
  cases hs : s.task a.iKey with
  | none =>
    rw [hs] at hw
    simp only [StartTask.written, ite_eq_right_iff, reduceCtorEq, imp_false] at hw
    simp [hw]
  | some h =>
    rw [hs] at hw
    simp only [StartTask.written, ite_eq_right_iff, reduceCtorEq, imp_false] at hw
    simp only [Option.isSome_some, if_true, Option.bind_some]
    rcases exec_newerThan h.optVer a.iOptVer s with hn | ⟨-, hi, hn⟩
    · left; simp [hn, hw]
    · right; exact ⟨⟨h, rfl, hi⟩, by simp [hn]⟩

theorem startDecide_accepts {s : Store} {h : TaskHash} (hw : a.written (s.task a.iKey) = some h) :
    ∃ o, exec (startDecide a) s = (.ok (1, o), s.setTask a.iKey h) := by
  unfold startDecide
  simp only [exec_bind, exec_existsKey, exec_hget, exec_hgetall, exec_hmset, exec_pure, exec_ite]
  cases hs : s.task a.iKey with
  | none =>
    rw [hs] at hw
    simp only [StartTask.written, Option.ite_none_right_eq_some, Option.some.injEq] at hw
    obtain ⟨hc, rfl⟩ := hw
    simp [hc]
  | some h₀ =>
    rw [hs] at hw
    simp only [StartTask.written, Option.ite_none_right_eq_some, Option.some.injEq] at hw
    obtain ⟨hc, rfl⟩ := hw
    simp only [Option.isSome_some, if_true, Option.bind_some]
    rcases exec_newerThan h₀.optVer a.iOptVer s with hn | ⟨hf, -, hn⟩
    · simp [hn, hc, hs]
    · simp [hf] at hc

theorem exec_startCommit {s : Store} {h : TaskHash} (hs : s.task a.iKey = some h) :
    exec (startCommit a) s = (bumpResult h, a.commit h s) := by
  unfold startCommit expire sadd
  simp only [exec_bind, exec_modifies, exec_hget, exec_hmset, exec_hsetList, exec_ite, hs,
    Option.isSome_some, if_true, Option.bind_some]
  by_cases hq : a.Acquires h
  · have hq' := hq
    unfold StartTask.Acquires at hq'
    simp only [hq', and_self, if_true, Option.getD_some]
    rw [exec_bumpVer (h := { h with tm := some (.str a.iMyTm) }) (by simp)]
    simp [StartTask.commit, StartTask.settle, hq, Store.setTask, Store.listSet, bumpResult]
  · have hq' := hq
    unfold StartTask.Acquires at hq'
    simp only [hq', if_false]
    rw [exec_bumpVer (h := h) (by simpa using hs)]
    simp [StartTask.commit, StartTask.settle, hq, Store.setTask]

end Start

section Stop

variable (a : StopTask)

def StopTask.written : Option TaskHash → Option TaskHash
  | none => if tonumber (some a.iCmdType) = some 0 then some (a.writeVersioned {}).unowned else none
  | some h =>
    if tonumber (some a.iInternal) = some 0 then
      if versionOk h.optVer a.iOptVer &&
          decide (tonumber (some a.iCmdType) = some 0 ∨
            (tonumber (some a.iCmdType) = some 3 ∧ tonumber h.opt = some 1)) then
        some (a.writeVersioned h)
      else none
    else some (a.write h)

def StopTask.settle (h : TaskHash) : TaskHash :=
  (if h.tm = some (.str a.iMyTm) then h.release else h).bump

def StopTask.commit (h : TaskHash) (s : Store) : Store where
  task := Function.update s.task a.iKey (some (a.settle h))
  ttl := Function.update s.ttl a.iKey (some 60)
  tmTasks :=
    if h.tm = some (.str a.iMyTm) then (s.listDel a.iMyTmKey a.iName).tmTasks else s.tmTasks
  names := Function.update s.names a.iAllTaskKey ((s.names a.iAllTaskKey).erase a.iName)

theorem stopDecide_rejects {s : Store} (hw : a.written (s.task a.iKey) = none) :
    (∃ o, exec (stopDecide a) s = (.ok (0, o), s)) ∨
      ((∃ h, s.task a.iKey = some h ∧ Incomparable h.optVer a.iOptVer) ∧
        exec (stopDecide a) s = (.error .comparison, s)) := by
  unfold stopDecide
  simp only [exec_bind, exec_existsKey, exec_hget, exec_hgetall, exec_hmset, exec_pure, exec_ite]
  cases hs : s.task a.iKey with
  | none =>
    rw [hs] at hw
    simp only [StopTask.written, ite_eq_right_iff, reduceCtorEq, imp_false] at hw
    simp [hw]
  | some h =>
    rw [hs] at hw
    by_cases hi : tonumber (some a.iInternal) = some 0
    · simp only [StopTask.written, hi, if_true, ite_eq_right_iff, reduceCtorEq, imp_false] at hw
      simp only [Option.isSome_some, if_true, Option.bind_some, hi]
      rcases exec_newerThan h.optVer a.iOptVer s with hn | ⟨-, hc, hn⟩
      · left
        simp only [hn, hw]
        simp
      · right; exact ⟨⟨h, rfl, hc⟩, by simp [hn]⟩
    · simp [StopTask.written, hi] at hw

theorem stopDecide_accepts {s : Store} {h : TaskHash} (hw : a.written (s.task a.iKey) = some h) :
    ∃ o, exec (stopDecide a) s = (.ok (1, o), s.setTask a.iKey h) := by
  unfold stopDecide
  simp only [exec_bind, exec_existsKey, exec_hget, exec_hgetall, exec_hmset, exec_pure, exec_ite]
  cases hs : s.task a.iKey with
  | none =>
    rw [hs] at hw
    simp only [StopTask.written, Option.ite_none_right_eq_some, Option.some.injEq] at hw
    obtain ⟨hc, rfl⟩ := hw
    simp [hc]
  | some h₀ =>
    rw [hs] at hw
    by_cases hi : tonumber (some a.iInternal) = some 0
    · simp only [StopTask.written, hi, if_true, Option.ite_none_right_eq_some, Option.some.injEq] at hw
      obtain ⟨hc, rfl⟩ := hw
      simp only [Option.isSome_some, if_true, Option.bind_some, hi]
      rcases exec_newerThan h₀.optVer a.iOptVer s with hn | ⟨hf, -, hn⟩
      · simp only [hn, hc, if_true]
        simp [hs]
      · simp [hf] at hc
    · simp only [StopTask.written, hi, if_false, Option.some.injEq] at hw
      simp [hi, hw]

theorem exec_stopCommit {s : Store} {h : TaskHash} (hs : s.task a.iKey = some h) :
    exec (stopCommit a) s = (bumpResult h, a.commit h s) := by
  unfold stopCommit expire srem
  simp only [exec_bind, exec_modifies, exec_hget, exec_hmset, exec_hdelList, exec_ite, hs,
    Option.isSome_some, if_true, Option.bind_some]
  by_cases hq : h.tm = some (.str a.iMyTm)
  · simp only [hq, if_true, Option.getD_some]
    rw [exec_bumpVer (h := h.release) (by simp)]
    simp [StopTask.commit, StopTask.settle, hq, Store.setTask, Store.listDel, bumpResult, TaskHash.release]
  · simp only [hq, if_false]
    rw [exec_bumpVer (h := h) (by simpa using hs)]
    simp [StopTask.commit, StopTask.settle, hq, Store.setTask]

end Stop

section PreStop

variable (a : PreStopTask)

def PreStopTask.written : Option TaskHash → Option TaskHash
  | none => if tonumber (some a.iCmdType) = some 0 then some (a.create {}) else none
  | some h =>
    if tonumber (some a.iInternal) = some 0 then
      if versionOk h.optVer a.iOptVer &&
          decide (tonumber (some a.iCmdType) = some 0 ∨
            (tonumber (some a.iCmdType) = some 3 ∧ tonumber h.opt = some 1 ∧ tonumber h.preStop = some 0)) then
        some { a.write (nowPreStop h.preStop a.iPreStop) h with optVer := a.iOptVer }
      else none
    else some (a.write (nowPreStop h.preStop a.iPreStop) h)

/-- A pre-stop sets a time to live only on the hash it creates. -/
def PreStopTask.setTtl (s : Store) : Store :=
  if (s.task a.iKey).isSome then s else { s with ttl := Function.update s.ttl a.iKey (some 60) }

def PreStopTask.commit (h : TaskHash) (s : Store) : Store := (a.setTtl s).setTask a.iKey h.bump

theorem preStopDecide_rejects {s : Store} (hw : a.written (s.task a.iKey) = none) :
    (∃ o, exec (preStopDecide a) s = (.ok (0, o), s)) ∨
      ((∃ h, s.task a.iKey = some h ∧ Incomparable h.optVer a.iOptVer) ∧
        exec (preStopDecide a) s = (.error .comparison, s)) := by
  unfold preStopDecide
  simp only [exec_bind, exec_existsKey, exec_hget, exec_hgetall, exec_hmset, exec_pure, exec_ite]
  cases hs : s.task a.iKey with
  | none =>
    rw [hs] at hw
    simp only [PreStopTask.written, ite_eq_right_iff, reduceCtorEq, imp_false] at hw
    simp [hw]
  | some h =>
    rw [hs] at hw
    by_cases hi : tonumber (some a.iInternal) = some 0
    · simp only [PreStopTask.written, hi, if_true, ite_eq_right_iff, reduceCtorEq, imp_false] at hw
      simp only [Option.isSome_some, if_true, Option.bind_some, hi]
      rcases exec_newerThan h.optVer a.iOptVer s with hn | ⟨-, hc, hn⟩
      · left
        simp only [hn, hw]
        simp
      · right; exact ⟨⟨h, rfl, hc⟩, by simp [hn]⟩
    · simp [PreStopTask.written, hi] at hw

theorem preStopDecide_accepts {s : Store} {h : TaskHash} (hw : a.written (s.task a.iKey) = some h) :
    ∃ o, exec (preStopDecide a) s = (.ok (1, o), (a.setTtl s).setTask a.iKey h) := by
  unfold preStopDecide PreStopTask.setTtl expire
  simp only [exec_bind, exec_existsKey, exec_hget, exec_hgetall, exec_hmset, exec_modifies, exec_pure, exec_ite]
  cases hs : s.task a.iKey with
  | none =>
    rw [hs] at hw
    simp only [PreStopTask.written, Option.ite_none_right_eq_some, Option.some.injEq] at hw
    obtain ⟨hc, rfl⟩ := hw
    simp [hc, Store.setTask]
  | some h₀ =>
    rw [hs] at hw
    by_cases hi : tonumber (some a.iInternal) = some 0
    · simp only [PreStopTask.written, hi, if_true, Option.ite_none_right_eq_some, Option.some.injEq] at hw
      obtain ⟨hc, rfl⟩ := hw
      simp only [Option.isSome_some, if_true, Option.bind_some, hi]
      rcases exec_newerThan h₀.optVer a.iOptVer s with hn | ⟨hf, -, hn⟩
      · simp only [hn, hc, if_true]
        simp [hs]
      · simp [hf] at hc
    · simp only [PreStopTask.written, hi, if_false, Option.some.injEq] at hw
      simp [hi, hw]

theorem exec_preStopCommit {s : Store} {h : TaskHash} :
    exec (bumpVer a.iKey) ((a.setTtl s).setTask a.iKey h) = (bumpResult h, a.commit h s) := by
  rw [exec_bumpVer (h := h) (by simp), setTask_setTask]
  rfl

end PreStop

namespace Command

def key : Command → String
  | .startTask a => a.iKey
  | .stopTask a => a.iKey
  | .preStopTask a => a.iKey

def optVer : Command → Val
  | .startTask a => a.iOptVer
  | .stopTask a => a.iOptVer
  | .preStopTask a => a.iOptVer

/-- An external command is subject to the version check; `start_task` always is. -/
def External : Command → Prop
  | .startTask _ => True
  | .stopTask a => tonumber (some a.iInternal) = some 0
  | .preStopTask a => tonumber (some a.iInternal) = some 0

def written : Command → Option TaskHash → Option TaskHash
  | .startTask a => a.written
  | .stopTask a => a.written
  | .preStopTask a => a.written

def settle : Command → TaskHash → TaskHash
  | .startTask a => a.settle
  | .stopTask a => a.settle
  | .preStopTask _ => TaskHash.bump

def commit : Command → TaskHash → Store → Store
  | .startTask a => a.commit
  | .stopTask a => a.commit
  | .preStopTask a => a.commit

variable {c : Command} {s : Store} {h : TaskHash}

/-- A rejected command leaves the store alone, whether it says so or fails
because the versions cannot be compared. -/
theorem exec_rejected (hw : c.written (s.task c.key) = none) :
    (∃ r, exec c.prog s = (.ok r, s) ∧ r.oUpdated = 0) ∨
      ((∃ h, s.task c.key = some h ∧ Incomparable h.optVer c.optVer) ∧
        exec c.prog s = (.error .comparison, s)) := by
  have frame : ∀ {key d m} {P : Prop},
      ((∃ o, exec d s = (.ok (0, o), s)) ∨ (P ∧ exec d s = (.error .comparison, s))) →
      (∃ r, exec (updateWith key d m) s = (.ok r, s) ∧ r.oUpdated = 0) ∨
        (P ∧ exec (updateWith key d m) s = (.error .comparison, s)) := by
    rintro key d m P (⟨o, hd⟩ | ⟨hp, hd⟩)
    · left
      exact ⟨_, by rw [exec_updateWith hd, if_neg (by decide)], rfl⟩
    · right
      exact ⟨hp, exec_bind_error hd _⟩
  cases c with
  | startTask a => exact frame (startDecide_rejects a hw)
  | stopTask a => exact frame (stopDecide_rejects a hw)
  | preStopTask a => exact frame (preStopDecide_rejects a hw)

/-- An accepted command commits; it can only fail where `ver` is not a number. -/
theorem exec_accepted (hw : c.written (s.task c.key) = some h) :
    (∃ r, exec c.prog s = (.ok r, c.commit h s) ∧ r.oUpdated = 1) ∨
      (tonumber h.ver = none ∧ exec c.prog s = (.error .arithmetic, c.commit h s)) := by
  have frame : ∀ {key d m o t}, exec d s = (.ok (1, o), t) → exec m t = (bumpResult h, c.commit h s) →
      (∃ r, exec (updateWith key d m) s = (.ok r, c.commit h s) ∧ r.oUpdated = 1) ∨
        (tonumber h.ver = none ∧ exec (updateWith key d m) s = (.error .arithmetic, c.commit h s)) := by
    intro key d m o t hd hm
    rw [exec_updateWith hd, if_pos rfl, hm]
    unfold bumpResult
    cases tonumber h.ver with
    | none => right; exact ⟨rfl, rfl⟩
    | some n => left; exact ⟨_, rfl, rfl⟩
  cases c with
  | startTask a =>
    obtain ⟨o, hd⟩ := startDecide_accepts a hw
    refine frame hd ?_
    rw [exec_startCommit a (h := h) (by simp)]
    simp [commit, StartTask.commit, Store.setTask, Store.listSet]
  | stopTask a =>
    obtain ⟨o, hd⟩ := stopDecide_accepts a hw
    refine frame hd ?_
    rw [exec_stopCommit a (h := h) (by simp)]
    simp [commit, StopTask.commit, Store.setTask, Store.listDel]
  | preStopTask a =>
    obtain ⟨o, hd⟩ := preStopDecide_accepts a hw
    exact frame hd (exec_preStopCommit a)

theorem commit_task (c : Command) (h : TaskHash) (s : Store) :
    (c.commit h s).task = Function.update s.task c.key (some (c.settle h)) := by
  cases c with
  | startTask a => rfl
  | stopTask a => rfl
  | preStopTask a =>
    simp only [commit, PreStopTask.commit, PreStopTask.setTtl, setTask_task]
    split_ifs <;> rfl

/-- The store a command leaves, in one equation. -/
theorem run_eq (c : Command) (s : Store) :
    (Call.command c).run s = (c.written (s.task c.key)).elim s fun h => c.commit h s := by
  have hrun : (Call.command c).run s = (exec c.prog s).2 := by
    simp only [Call.run, Call.prog, exec_discard]
  rw [hrun]
  cases hw : c.written (s.task c.key) with
  | none => rcases exec_rejected hw with ⟨r, hr, -⟩ | ⟨-, hr⟩ <;> rw [hr] <;> rfl
  | some h => rcases exec_accepted hw with ⟨r, hr, -⟩ | ⟨-, hr⟩ <;> rw [hr] <;> rfl

end Command

end CppBase.TaskStore
