import CppBase.Lib.Machine
import CppBase.Sanity.Accepted

/-! Well-formed task hashes. Every hash the scripts create is well-formed and
stays so, and on well-formed hashes no script fails for want of a `ver`. -/

namespace CppBase.TaskStore

open CppBase.Lib

structure TaskHash.Wf (h : TaskHash) : Prop where
  ver : ∃ q, h.ver = some (.num q)
  opt : h.opt = some (.num 0) ∨ h.opt = some (.num 1)
  tm : ∃ T, h.tm = some (.str T)
  optVer : ∃ v, h.optVer = some v

def Store.Wf (s : Store) : Prop := ∀ k h, s.task k = some h → h.Wf

theorem wf_empty : Store.empty.Wf := by
  intro k h hk
  cases hk

theorem TaskHash.Wf.tonumber_ver {h : TaskHash} (hw : h.Wf) : tonumber h.ver ≠ none := by
  obtain ⟨q, hq⟩ := hw.ver
  simp [hq]

/-- A command leaves a task started, stopped, or as it was. -/
theorem Command.written_opt {c : Command} {o : Option TaskHash} {h : TaskHash} (hw : c.written o = some h) :
    h.opt = some (.num 0) ∨ h.opt = some (.num 1) ∨ ∃ h₀, o = some h₀ ∧ h.opt = h₀.opt := by
  cases c with
  | startTask a =>
    simp only [written] at hw
    rcases a.written_inv hw with ⟨-, rfl⟩ | ⟨h₀, -, -, rfl⟩
    · exact Or.inr (Or.inl rfl)
    · exact Or.inr (Or.inl rfl)
  | stopTask a =>
    simp only [written] at hw
    rcases a.written_inv hw with ⟨-, rfl⟩ | ⟨h₀, -, ⟨-, -, rfl⟩ | ⟨-, rfl⟩⟩ <;> exact Or.inl rfl
  | preStopTask a =>
    simp only [written] at hw
    rcases a.written_inv hw with ⟨-, rfl⟩ | ⟨h₀, now, ho, ⟨-, -, rfl⟩ | ⟨-, rfl⟩⟩
    · exact Or.inl rfl
    · exact Or.inr (Or.inr ⟨h₀, ho, rfl⟩)
    · exact Or.inr (Or.inr ⟨h₀, ho, rfl⟩)

theorem Command.settle_tm {c : Command} {h : TaskHash} (ht : ∃ T, h.tm = some (.str T)) :
    ∃ T, (c.settle h).tm = some (.str T) := by
  cases c with
  | startTask a =>
    simp only [settle, StartTask.settle, bump_tm]
    split_ifs
    · exact ⟨_, rfl⟩
    · exact ht
  | stopTask a =>
    simp only [settle, StopTask.settle, bump_tm]
    split_ifs
    · exact ⟨_, rfl⟩
    · exact ht
  | preStopTask a => simpa only [settle, bump_tm] using ht

theorem Ownership.Moves.tm {c : Ownership} {h h' : TaskHash} (hm : c.Moves h h')
    (ht : ∃ T, h.tm = some (.str T)) : ∃ T, h'.tm = some (.str T) := by
  cases c with
  | auditTask a => obtain ⟨-, -, rfl⟩ := hm; exact ⟨_, rfl⟩
  | loadAllTask order a => obtain ⟨-, rfl⟩ := hm; simpa only [bump_tm] using ht
  | loadbalancePreemptTask a => obtain ⟨-, -, rfl⟩ := hm; exact ⟨_, rfl⟩
  | postponedPreemptTask a => obtain ⟨-, -, rfl⟩ := hm; exact ⟨_, rfl⟩
  | preemptTmTask order a => obtain ⟨-, -, rfl⟩ := hm; exact ⟨_, rfl⟩
  | onTmNotifyControl a => obtain ⟨-, -, rfl⟩ := hm; exact ⟨_, rfl⟩
  | onTmNotifyUpdate a => obtain ⟨-, rfl⟩ := hm; exact ⟨_, bump_tm⟩
  | updateTaskSap a => obtain ⟨-, n, -, rfl⟩ := hm; exact ⟨_, rfl⟩

theorem Ownership.Moves.wf {c : Ownership} {h h' : TaskHash} (hm : c.Moves h h') (hw : h.Wf) : h'.Wf where
  ver := by
    obtain ⟨q, hq⟩ := hw.ver
    exact ⟨_, hm.ver hq⟩
  opt := by rw [opt_eq_of_versioned hm.versioned]; exact hw.opt
  tm := hm.tm hw.tm
  optVer := by rw [optVer_eq_of_versioned hm.versioned]; exact hw.optVer

theorem Command.settle_wf {c : Command} {o : Option TaskHash} {h : TaskHash} (hw : c.written o = some h)
    (ho : ∀ h₀, o = some h₀ → h₀.Wf) : (c.settle h).Wf := by
  have hopt := c.written_opt hw
  have hv := c.settle_versioned h
  cases o with
  | none =>
    obtain ⟨h1, h2, h3⟩ := c.written_none hw
    refine ⟨⟨_, c.settle_ver h1⟩, ?_, c.settle_tm ⟨_, h2⟩, ⟨_, (optVer_eq_of_versioned hv).trans h3⟩⟩
    rw [opt_eq_of_versioned hv]
    rcases hopt with h | h | ⟨h₀, h, -⟩
    · exact Or.inl h
    · exact Or.inr h
    · cases h
  | some h₀ =>
    have hwf := ho h₀ rfl
    obtain ⟨h1, h2, h3⟩ := c.written_some hw
    obtain ⟨q, hq⟩ := hwf.ver
    refine ⟨⟨_, c.settle_ver (h1.trans hq)⟩, ?_, c.settle_tm (by rw [h2]; exact hwf.tm), ?_⟩
    · rw [opt_eq_of_versioned hv]
      rcases hopt with h | h | ⟨h₁, h, h'⟩
      · exact Or.inl h
      · exact Or.inr h
      · cases h
        rw [h']
        exact hwf.opt
    · rw [optVer_eq_of_versioned hv]
      rcases h3 with ⟨-, -, h⟩ | ⟨-, h⟩
      · exact ⟨_, h⟩
      · rw [h]; exact hwf.optVer

theorem TaskStep.wf {k : String} {e : Event} {o o' : Option TaskHash} (hst : TaskStep k e o o')
    (ho : ∀ h, o = some h → h.Wf) : ∀ h', o' = some h' → h'.Wf := by
  intro h' ho'
  cases hst with
  | same => exact ho h' ho'
  | command c _ hw => cases ho'; exact c.settle_wf hw ho
  | ownership c hm => cases ho'; exact hm.wf (ho _ rfl)
  | expire => cases ho'

theorem Store.Wf.next {s : Store} (hs : s.Wf) (e : Event) : (s.next e).Wf :=
  fun k => (next_taskStep s e k).wf (hs k)

theorem wf_of_run {ok : Store → Event → Prop} {es : List Event} {s : Store}
    (h : Run Store.next ok Store.empty es s) : s.Wf :=
  h.invariant (fun _ e _ hs => hs.next e) wf_empty

section Errors

variable {s : Store}

theorem bumpVerIfAny_arith {key : String} {h : TaskHash} (hk : s.task key = some h) (hw : h.Wf) :
    exec (bumpVerIfAny key) s = (.ok (), s.setTask key h.bump) := by
  rcases exec_bumpVerIfAny hk with hb | ⟨hv, -⟩
  · exact hb
  · exact absurd hv hw.tonumber_ver

theorem auditTask_arith (hs : s.Wf) (a : AuditTask) : (exec (auditTask a) s).1 ≠ .error .arithmetic := by
  unfold auditTask
  simp only [exec_bind, exec_existsKey, exec_hgetall, exec_hget, exec_ite, exec_hdelList]
  cases hk : s.task a.iKey with
  | none => simp
  | some h =>
    have hb := bumpVerIfAny_arith hk (hs _ _ hk)
    simp only [Option.isSome_some, if_true, Option.bind_some]
    cases ht : h.tm with
    | none => simp [exec_map]
    | some t =>
      by_cases hm : t = .str a.iTmId
      · by_cases ho : tonumber h.opt = some 0
        · simp [hm, ho, exec_bind, hk, hb, exec_map]
        · simp [hm, ho, exec_bind, hk, exec_map]
      · simp [hm, exec_bind, exec_map]

theorem takeRunning_arith (hs : s.Wf) (f key n my lk : String) (hb : Val) :
    (exec (takeRunning f key n my lk hb) s).1 ≠ .error .arithmetic := by
  unfold takeRunning
  simp only [exec_bind, exec_existsKey, exec_hgetall, exec_hget, exec_ite]
  cases hk : s.task key with
  | none => simp
  | some h =>
    simp only [Option.isSome_some, if_true, Option.bind_some]
    by_cases hg : h.tm = some (.str f) ∧ tonumber h.opt = some 1
    · rcases exec_newVer h s with hn | ⟨hv, -⟩
      · cases tonumber (some hb) <;> simp [hg, hn]
      · exact absurd hv (hs _ _ hk).tonumber_ver
    · simp [hg]

theorem onTmNotifyUpdate_arith (hs : s.Wf) (a : OnTmNotifyUpdate) :
    (exec (onTmNotifyUpdate a) s).1 ≠ .error .arithmetic := by
  unfold onTmNotifyUpdate
  simp only [exec_bind, exec_existsKey, exec_hgetall, exec_hget, exec_hmset, exec_hdelList, exec_ite]
  cases hk : s.task a.iKey with
  | none => simp
  | some h =>
    simp only [Option.isSome_some, if_true, Option.bind_some, Option.getD_some]
    by_cases ho : tonumber h.opt = some 0
    · have htask : ((s.setTask a.iKey h.release).listDel a.iTmTasksKey a.iName).task a.iKey =
          some h.release := by simp
      rcases exec_bumpVerIfAny htask with hb | ⟨hv, -⟩
      · simp [ho, hb]
      · exact absurd hv (hs _ _ hk).tonumber_ver
    · simp [ho]

theorem updateTaskSap_arith (hs : s.Wf) (a : UpdateTaskSap) :
    (exec (updateTaskSap a) s).1 ≠ .error .arithmetic := by
  unfold updateTaskSap
  simp only [exec_bind, exec_existsKey, exec_hgetall, exec_hget, exec_ite]
  cases hk : s.task a.iKey with
  | none => simp
  | some h =>
    simp only [Option.isSome_some, if_true, Option.bind_some]
    obtain ⟨q, hq⟩ := (hs _ _ hk).ver
    by_cases ht : h.tm = some (.str a.iMyTm) <;> simp [ht, hq]

/-- The rounds of the two loops keep hashes well-formed, so a later round cannot fail either. -/
theorem wf_setTask (hs : s.Wf) {key : String} {h : TaskHash} (hw : h.Wf) : (s.setTask key h).Wf := by
  intro k h' hk
  by_cases hkk : k = key
  · subst hkk
    simp only [setTask_task, Function.update_self, Option.some.injEq] at hk
    rwa [← hk]
  · simp only [setTask_task, Function.update_of_ne hkk] at hk
    exact hs k h' hk

theorem loadOneStore_wf (hs : s.Wf) (a : LoadAllTask) (n : String) : (loadOneStore a s n).Wf := by
  unfold loadOneStore
  cases hk : s.task (a.iTaskPrefix ++ n) with
  | none => exact hs
  | some h =>
    have hb : h.tm = some (.str a.iTmId) → h.bump.Wf := fun ht =>
      (show (Ownership.loadAllTask ⟨id, fun _ => .refl _⟩ a).Moves h h.bump from ⟨ht, rfl⟩).wf (hs _ _ hk)
    dsimp only
    split_ifs with h1 h2 h3
    · exact hs
    · exact wf_setTask (s := s.listDel a.lMyTmTaskKey n) hs (hb h2)
    · exact wf_setTask hs (hb h2)
    · exact hs

theorem preemptOneStore_wf (hs : s.Wf) (a : PreemptTmTask) (n : String) : (preemptOneStore a s n).Wf := by
  unfold preemptOneStore
  cases hk : s.task (a.iTaskPrefix ++ n) with
  | none => exact hs
  | some h =>
    dsimp only
    split_ifs with hg
    · have hw : (h.takenBy a.iMyTmId 0).Wf :=
        (show (Ownership.preemptTmTask ⟨id, fun _ => .refl _⟩ a).Moves h (h.takenBy a.iMyTmId 0) from
          ⟨hg.1, hg.2.1, rfl⟩).wf (hs _ _ hk)
      cases tonumber (some a.iHeartBeat) with
      | none => exact wf_setTask hs hw
      | some q => exact wf_setTask hs hw
    · exact hs

theorem loadAllLoop_arith (a : LoadAllTask) (ns : List String) (hs : s.Wf) :
    (exec (loadAllLoop a ns) s).1 ≠ .error .arithmetic := by
  induction ns generalizing s with
  | nil => simp [loadAllLoop]
  | cons n ns ih =>
    intro he
    rcases exec_loadOne a s n with ⟨row, h⟩ | ⟨⟨h, hk, hv⟩, -⟩
    · rw [loadAllLoop, exec_bind_ok h] at he
      rcases error_of_bind he with he | ⟨_, _, -, he⟩
      · exact ih (loadOneStore_wf hs a n) he
      · simp at he
    · exact (hs _ _ hk).tonumber_ver hv

theorem preemptLoop_arith (a : PreemptTmTask) (target : ℚ) (ns : List String) (count : ℕ) (hs : s.Wf) :
    (exec (preemptLoop a target ns count) s).1 ≠ .error .arithmetic := by
  induction ns generalizing s count with
  | nil => simp [preemptLoop]
  | cons n ns ih =>
    intro he
    unfold preemptLoop at he
    by_cases hc : (count : ℚ) < target
    · rw [if_pos hc] at he
      rcases exec_preemptOne a s n with ⟨row, h⟩ | h | ⟨⟨h, hk, hv⟩, -⟩
      · rw [exec_bind_ok h] at he
        cases row with
        | none => exact ih count (preemptOneStore_wf hs a n) he
        | some row =>
          rcases error_of_bind he with he | ⟨_, _, -, he⟩
          · exact ih (count + 1) (preemptOneStore_wf hs a n) he
          · simp at he
      · simp [exec_bind_error h] at he
      · exact (hs _ _ hk).tonumber_ver hv
    · rw [if_neg hc] at he
      exact ih count hs he

theorem preemptTmTask_arith (hs : s.Wf) (order : ScanOrder) (a : PreemptTmTask) :
    (exec (preemptTmTask order a) s).1 ≠ .error .arithmetic := by
  intro he
  rcases error_of_bind he with he | ⟨ns, t, hn, he⟩
  · simp [hgetallNames] at he
  · simp only [hgetallNames, exec_gets, Prod.mk.injEq, Except.ok.injEq] at hn
    obtain ⟨-, rfl⟩ := hn
    cases hd : tonumber (some a.iDenominator) with
    | none => simp [hd] at he
    | some d =>
      simp only [hd] at he
      rcases error_of_bind he with he | ⟨_, _, -, he⟩
      · exact preemptLoop_arith a _ _ _ hs he
      · simp at he

theorem Command.prog_arith (hs : s.Wf) (c : Command) : (exec c.prog s).1 ≠ .error .arithmetic := by
  cases hw : c.written (s.task c.key) with
  | none => rcases exec_rejected hw with ⟨r, hr, -⟩ | ⟨-, hr⟩ <;> simp [hr]
  | some h =>
    rcases exec_accepted hw with ⟨r, hr, -⟩ | ⟨hv, -⟩
    · simp [hr]
    · cases ho : s.task c.key with
      | none =>
        rw [ho] at hw
        simp [(c.written_none hw).1] at hv
      | some h₀ =>
        rw [ho] at hw
        rw [(c.written_some hw).1] at hv
        exact absurd hv (hs _ _ ho).tonumber_ver

theorem discard_arith {α : Type} {m : Script α} (h : (exec m s).1 ≠ .error .arithmetic) :
    (exec (discard m) s).1 ≠ .error .arithmetic := by
  rw [exec_discard]
  cases ho : (exec m s).1 with
  | ok a => simp [Except.map]
  | error e => simpa [Except.map, ho] using h

/-- On a well-formed store no script does arithmetic on a missing field. -/
theorem Call.prog_arith (hs : s.Wf) (c : Call) : (exec c.prog s).1 ≠ .error .arithmetic := by
  cases c with
  | command c => exact discard_arith (c.prog_arith hs)
  | ownership c =>
    cases c with
    | auditTask a => exact discard_arith (auditTask_arith hs a)
    | loadAllTask order a => exact discard_arith (loadAllLoop_arith a _ hs)
    | loadbalancePreemptTask a => exact discard_arith (takeRunning_arith hs _ _ _ _ _ _)
    | postponedPreemptTask a => exact discard_arith (takeRunning_arith hs _ _ _ _ _ _)
    | preemptTmTask order a => exact discard_arith (preemptTmTask_arith hs order a)
    | onTmNotifyControl a => exact discard_arith (takeRunning_arith hs _ _ _ _ _ _)
    | onTmNotifyUpdate a => exact discard_arith (onTmNotifyUpdate_arith hs a)
    | updateTaskSap a => exact discard_arith (updateTaskSap_arith hs a)

end Errors

end CppBase.TaskStore
