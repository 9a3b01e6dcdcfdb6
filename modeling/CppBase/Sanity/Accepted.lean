import CppBase.Sanity.TaskLife

/-! What accepted commands write and what the other changes of a task hash keep:
the command decides the versioned fields, everything else moves `tm` and `ver`. -/

namespace CppBase.TaskStore

open CppBase.Lib

/-- The fields a command decides. -/
structure Versioned where
  optVer : Option Val
  opt : Option Val
  taskParam : Option Val
  taskType : Option Val
  appId : Option Val
  sid : Option Val
  preStop : Option Val
  stopReason : Option Val
  deriving DecidableEq

def TaskHash.versioned (h : TaskHash) : Versioned :=
  ⟨h.optVer, h.opt, h.taskParam, h.taskType, h.appId, h.sid, h.preStop, h.stopReason⟩

section Fields

variable {h h' : TaskHash}

@[simp] theorem bump_versioned : h.bump.versioned = h.versioned := by
  unfold TaskHash.bump
  split <;> rfl

@[simp] theorem bump_tm : h.bump.tm = h.tm := by
  unfold TaskHash.bump
  split <;> rfl

theorem bump_ver {q : ℚ} (hq : h.ver = some (.num q)) : h.bump.ver = some (.num (q + 1)) := by
  simp only [TaskHash.bump, hq, tonumber_num]

@[simp] theorem release_versioned : h.release.versioned = h.versioned := rfl
@[simp] theorem takenBy_versioned (my : String) (d : ℚ) : (h.takenBy my d).versioned = h.versioned := rfl

theorem takenBy_ver {q : ℚ} (hq : h.ver = some (.num q)) (my : String) (d : ℚ) :
    (h.takenBy my d).ver = some (.num (q + 1)) := by
  simp only [TaskHash.takenBy, hq, tonumber_num, Option.elim_some]

theorem opt_eq_of_versioned (hv : h'.versioned = h.versioned) : h'.opt = h.opt :=
  congrArg Versioned.opt hv

theorem optVer_eq_of_versioned (hv : h'.versioned = h.versioned) : h'.optVer = h.optVer :=
  congrArg Versioned.optVer hv

end Fields

/-- No ownership script writes a versioned field. -/
theorem Ownership.Moves.versioned {c : Ownership} {h h' : TaskHash} (hm : c.Moves h h') :
    h'.versioned = h.versioned := by
  cases c with
  | auditTask a => obtain ⟨-, -, rfl⟩ := hm; simp
  | loadAllTask order a => obtain ⟨-, rfl⟩ := hm; simp
  | loadbalancePreemptTask a => obtain ⟨-, -, rfl⟩ := hm; simp
  | postponedPreemptTask a => obtain ⟨-, -, rfl⟩ := hm; simp
  | preemptTmTask order a => obtain ⟨-, -, rfl⟩ := hm; simp
  | onTmNotifyControl a => obtain ⟨-, -, rfl⟩ := hm; simp
  | onTmNotifyUpdate a => obtain ⟨-, rfl⟩ := hm; simp
  | updateTaskSap a => obtain ⟨-, n, -, rfl⟩ := hm; rfl

/-- Every ownership script that changes a hash increments its `ver`. -/
theorem Ownership.Moves.ver {c : Ownership} {h h' : TaskHash} (hm : c.Moves h h') {q : ℚ}
    (hq : h.ver = some (.num q)) : h'.ver = some (.num (q + 1)) := by
  cases c with
  | auditTask a => obtain ⟨-, -, rfl⟩ := hm; exact bump_ver hq
  | loadAllTask order a => obtain ⟨-, rfl⟩ := hm; exact bump_ver hq
  | loadbalancePreemptTask a => obtain ⟨-, -, rfl⟩ := hm; exact takenBy_ver hq _ _
  | postponedPreemptTask a => obtain ⟨-, -, rfl⟩ := hm; exact takenBy_ver hq _ _
  | preemptTmTask order a => obtain ⟨-, -, rfl⟩ := hm; exact takenBy_ver hq _ _
  | onTmNotifyControl a => obtain ⟨-, -, rfl⟩ := hm; exact takenBy_ver hq _ _
  | onTmNotifyUpdate a => obtain ⟨-, rfl⟩ := hm; exact bump_ver hq
  | updateTaskSap a =>
    obtain ⟨-, n, hn, rfl⟩ := hm
    rw [hq, tonumber_num, Option.some.injEq] at hn
    rw [hn]
    rfl

section Written

variable {o : Option TaskHash} {h : TaskHash}

theorem StartTask.written_inv (a : StartTask) (hw : a.written o = some h) :
    (o = none ∧ h = (a.write {}).unowned) ∨
      ∃ h₀, o = some h₀ ∧ versionOk h₀.optVer a.iOptVer = true ∧ h = a.write h₀ := by
  cases o with
  | none =>
    simp only [StartTask.written, Option.ite_none_right_eq_some, Option.some.injEq] at hw
    exact Or.inl ⟨rfl, hw.2.symm⟩
  | some h₀ =>
    simp only [StartTask.written, Option.ite_none_right_eq_some, Option.some.injEq, Bool.and_eq_true] at hw
    exact Or.inr ⟨h₀, rfl, hw.1.1, hw.2.symm⟩

theorem StopTask.written_inv (a : StopTask) (hw : a.written o = some h) :
    (o = none ∧ h = (a.writeVersioned {}).unowned) ∨
      ∃ h₀, o = some h₀ ∧
        ((tonumber (some a.iInternal) = some 0 ∧ versionOk h₀.optVer a.iOptVer = true ∧ h = a.writeVersioned h₀) ∨
          (tonumber (some a.iInternal) ≠ some 0 ∧ h = a.write h₀)) := by
  cases o with
  | none =>
    simp only [StopTask.written, Option.ite_none_right_eq_some, Option.some.injEq] at hw
    exact Or.inl ⟨rfl, hw.2.symm⟩
  | some h₀ =>
    refine Or.inr ⟨h₀, rfl, ?_⟩
    by_cases hi : tonumber (some a.iInternal) = some 0
    · simp only [StopTask.written, hi, if_true, Option.ite_none_right_eq_some, Option.some.injEq,
        Bool.and_eq_true] at hw
      exact Or.inl ⟨hi, hw.1.1, hw.2.symm⟩
    · simp only [StopTask.written, hi, if_false, Option.some.injEq] at hw
      exact Or.inr ⟨hi, hw.symm⟩

theorem PreStopTask.written_inv (a : PreStopTask) (hw : a.written o = some h) :
    (o = none ∧ h = a.create {}) ∨
      ∃ h₀ now, o = some h₀ ∧
        ((tonumber (some a.iInternal) = some 0 ∧ versionOk h₀.optVer a.iOptVer = true ∧
          h = { a.write now h₀ with optVer := a.iOptVer }) ∨
          (tonumber (some a.iInternal) ≠ some 0 ∧ h = a.write now h₀)) := by
  cases o with
  | none =>
    simp only [PreStopTask.written, Option.ite_none_right_eq_some, Option.some.injEq] at hw
    exact Or.inl ⟨rfl, hw.2.symm⟩
  | some h₀ =>
    refine Or.inr ⟨h₀, nowPreStop h₀.preStop a.iPreStop, rfl, ?_⟩
    by_cases hi : tonumber (some a.iInternal) = some 0
    · simp only [PreStopTask.written, hi, if_true, Option.ite_none_right_eq_some, Option.some.injEq,
        Bool.and_eq_true] at hw
      exact Or.inl ⟨hi, hw.1.1, hw.2.symm⟩
    · simp only [PreStopTask.written, hi, if_false, Option.some.injEq] at hw
      exact Or.inr ⟨hi, hw.symm⟩

variable {c : Command}

/-- A created hash starts unowned at version 0 with the command's `optVer`. -/
theorem Command.written_none (hw : c.written none = some h) :
    h.ver = some (.num 0) ∧ h.tm = some (.str "") ∧ h.optVer = some c.optVer := by
  cases c with
  | startTask a =>
    simp only [written] at hw
    rcases a.written_inv hw with ⟨-, rfl⟩ | ⟨h₀, ho, -⟩
    · exact ⟨rfl, rfl, rfl⟩
    · cases ho
  | stopTask a =>
    simp only [written] at hw
    rcases a.written_inv hw with ⟨-, rfl⟩ | ⟨h₀, ho, -⟩
    · exact ⟨rfl, rfl, rfl⟩
    · cases ho
  | preStopTask a =>
    simp only [written] at hw
    rcases a.written_inv hw with ⟨-, rfl⟩ | ⟨h₀, now, ho, -⟩
    · exact ⟨rfl, rfl, rfl⟩
    · cases ho

/-- On an existing hash a command writes neither `ver` nor `tm` in its first
block, and `optVer` exactly if it is external. -/
theorem Command.written_some {h₀ : TaskHash} (hw : c.written (some h₀) = some h) :
    h.ver = h₀.ver ∧ h.tm = h₀.tm ∧
      ((c.External ∧ versionOk h₀.optVer c.optVer = true ∧ h.optVer = some c.optVer) ∨
        (¬ c.External ∧ h.optVer = h₀.optVer)) := by
  cases c with
  | startTask a =>
    simp only [written] at hw
    rcases a.written_inv hw with ⟨ho, -⟩ | ⟨h₁, ho, hv, rfl⟩
    · cases ho
    · cases ho
      exact ⟨rfl, rfl, Or.inl ⟨trivial, hv, rfl⟩⟩
  | stopTask a =>
    simp only [written] at hw
    rcases a.written_inv hw with ⟨ho, -⟩ | ⟨h₁, ho, ⟨hi, hv, rfl⟩ | ⟨hi, rfl⟩⟩
    · cases ho
    · cases ho
      exact ⟨rfl, rfl, Or.inl ⟨hi, hv, rfl⟩⟩
    · cases ho
      exact ⟨rfl, rfl, Or.inr ⟨hi, rfl⟩⟩
  | preStopTask a =>
    simp only [written] at hw
    rcases a.written_inv hw with ⟨ho, -⟩ | ⟨h₁, now, ho, ⟨hi, hv, rfl⟩ | ⟨hi, rfl⟩⟩
    · cases ho
    · cases ho
      exact ⟨rfl, rfl, Or.inl ⟨hi, hv, rfl⟩⟩
    · cases ho
      exact ⟨rfl, rfl, Or.inr ⟨hi, rfl⟩⟩

end Written

@[simp] theorem Command.settle_versioned (c : Command) (h : TaskHash) :
    (c.settle h).versioned = h.versioned := by
  cases c with
  | startTask a => simp only [settle, StartTask.settle, bump_versioned]; split_ifs <;> rfl
  | stopTask a => simp only [settle, StopTask.settle, bump_versioned]; split_ifs <;> rfl
  | preStopTask a => exact bump_versioned

theorem Command.settle_ver (c : Command) {h : TaskHash} {q : ℚ} (hq : h.ver = some (.num q)) :
    (c.settle h).ver = some (.num (q + 1)) := by
  cases c with
  | startTask a => exact bump_ver (by split_ifs <;> exact hq)
  | stopTask a => exact bump_ver (by split_ifs <;> exact hq)
  | preStopTask a => exact bump_ver hq

end CppBase.TaskStore
