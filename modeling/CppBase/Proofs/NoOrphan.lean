import CppBase.Proofs.OwnerChange

/-! A running task is listed with its owner. The scripts keep this except where
`load_all_task` drops a stopped task from its owner's list but leaves `tm` set:
a later start brings that task back with an owner that no longer lists it. -/

namespace CppBase.TaskStore

open CppBase.Lib

/-- Task keys are the prefix and the name, list keys the prefix and the manager's
id, and `update_task_sap` keeps the caller as the owner or gives the task up. -/
def Call.Consistent (P L : String) : Call → Prop
  | .command (.startTask a) => a.iKey = P ++ a.iName ∧ a.iMyTmKey = L ++ a.iMyTm
  | .command (.stopTask a) => a.iKey = P ++ a.iName ∧ a.iMyTmKey = L ++ a.iMyTm
  | .command (.preStopTask a) => ∃ name, a.iKey = P ++ name
  | .ownership (.auditTask a) => a.iKey = P ++ a.iTaskName ∧ a.iTmTaskList = L ++ a.iTmId
  | .ownership (.loadAllTask _ a) => a.iTaskPrefix = P ∧ a.iTmTaskKeyPrefix = L
  | .ownership (.loadbalancePreemptTask a) => a.iKey = P ++ a.iName ∧ a.iTmTasksKey = L ++ a.iMyTmId
  | .ownership (.postponedPreemptTask a) => a.iKey = P ++ a.iName ∧ a.iTmTasksKey = L ++ a.iMyTmId
  | .ownership (.preemptTmTask _ a) => a.iTaskPrefix = P ∧ a.iTmTaskKeyPrefix = L
  | .ownership (.onTmNotifyControl a) => a.iKey = P ++ a.iName ∧ a.iTmTasksKey = L ++ a.iMyTmId
  | .ownership (.onTmNotifyUpdate a) => a.iKey = P ++ a.iName ∧ a.iTmTasksKey = L ++ a.iMyTmId
  | .ownership (.updateTaskSap a) => (∃ name, a.iKey = P ++ name) ∧ (a.iTm = a.iMyTm ∨ a.iTm = "")

/-- Consistent calls of managers with non-empty ids, and expiry of stopped tasks. -/
def consistentOk (P L : String) (s : Store) : Event → Prop
  | .call c => c.IdsNonempty ∧ c.Consistent P L
  | .expire key => ∃ h, s.task key = some h ∧ h.opt = some (.num 0)

/-- Every running task that has an owner is a field of the owner's list. -/
def Store.NoOrphan (P L : String) (s : Store) : Prop :=
  ∀ name h T, s.task (P ++ name) = some h → h.opt = some (.num 1) → h.tm = some (.str T) → T ≠ "" →
    name ∈ s.tmTasks (L ++ T)

/-- Where a call cannot lose an entry: `load_all_task` finds no stopped task that
is still its manager's, and a preempting call has a heartbeat that is a number. -/
def Call.KeepsEntries (s : Store) : Call → Prop
  | .ownership (.loadAllTask _ a) => ∀ name ∈ s.tmTasks a.lMyTmTaskKey, ∀ h,
      s.task (a.iTaskPrefix ++ name) = some h → h.tm = some (.str a.iTmId) → tonumber h.opt ≠ some 0
  | .ownership (.loadbalancePreemptTask a) => tonumber (some a.iHeartBeat) ≠ none
  | .ownership (.postponedPreemptTask a) => tonumber (some a.iHeartBeat) ≠ none
  | .ownership (.preemptTmTask _ a) => tonumber (some a.iHeartBeat) ≠ none
  | .ownership (.onTmNotifyControl a) => tonumber (some a.iHeartBeat) ≠ none
  | _ => True

def keepingOk (P L : String) (s : Store) (e : Event) : Prop :=
  consistentOk P L s e ∧ ∀ c, e = .call c → c.KeepsEntries s

/-- The invariant behind it: every task that has an owner, running or stopped, is listed. -/
def Store.Listed (P L : String) (s : Store) : Prop :=
  ∀ name h T, s.task (P ++ name) = some h → h.tm = some (.str T) → T ≠ "" → name ∈ s.tmTasks (L ++ T)

section Writes

variable {P L : String} {s s' : Store} {name : String} {h : TaskHash}

theorem Store.Listed.congr (hI : s.Listed P L) (htask : s'.task = s.task) (hlist : s'.tmTasks = s.tmTasks) :
    s'.Listed P L := by
  intro name h T hk htm hT
  rw [htask] at hk
  rw [hlist]
  exact hI name h T hk htm hT

theorem mem_listSet_of_mem {key n k : String} {v : Val} (hn : n ∈ s.tmTasks k) :
    n ∈ (s.listSet key name v).tmTasks k := by
  by_cases hk : k = key
  · subst hk
    simp [Store.listSet, AList.mem_insert, hn]
  · simpa [Store.listSet, Function.update_of_ne hk] using hn

theorem mem_listDel_of_mem {key n k : String} (hn : n ∈ s.tmTasks k) (hne : k = key → n ≠ name) :
    n ∈ (s.listDel key name).tmTasks k := by
  by_cases hk : k = key
  · subst hk
    simp [Store.listDel, AList.mem_erase, hn, hne rfl]
  · simpa [Store.listDel, Function.update_of_ne hk] using hn

theorem Store.Listed.listSet (hI : s.Listed P L) (key name : String) (v : Val) :
    (s.listSet key name v).Listed P L :=
  fun n h T hk htm hT => mem_listSet_of_mem (hI n h T hk htm hT)

/-- A name may leave a list whose manager does not own the task. -/
theorem Store.Listed.listDel (hI : s.Listed P L) {id : String}
    (hne : ∀ h, s.task (P ++ name) = some h → h.tm ≠ some (.str id)) : (s.listDel (L ++ id) name).Listed P L := by
  intro n h T hk htm hT
  refine mem_listDel_of_mem (hI n h T hk htm hT) ?_
  rintro hkey rfl
  rw [String.append_right_inj] at hkey
  subst hkey
  exact hne h hk htm

/-- A write that keeps the owner, or that clears it. -/
theorem Store.Listed.setTask (hI : s.Listed P L) (key : String)
    (htm : h.tm = some (.str "") ∨ ∃ h₀, s.task key = some h₀ ∧ h.tm = h₀.tm) : (s.setTask key h).Listed P L := by
  intro n h' T hk htm' hT
  by_cases hn : P ++ n = key
  · subst hn
    simp only [setTask_task, Function.update_self, Option.some.injEq] at hk
    subst hk
    rcases htm with h1 | ⟨h₀, h1, h2⟩
    · rw [h1, Option.some.injEq, Val.str.injEq] at htm'
      exact absurd htm'.symm hT
    · exact hI n h₀ T h1 (h2.symm.trans htm') hT
  · simp only [setTask_task, Function.update_of_ne hn] at hk
    exact hI n h' T hk htm' hT

theorem Store.Listed.release (hI : s.Listed P L) (name key : String) (htm : h.tm = some (.str "")) :
    ((s.setTask (P ++ name) h).listDel key name).Listed P L := by
  intro n h' T hk htm' hT
  refine mem_listDel_of_mem (hI.setTask _ (Or.inl htm) n h' T hk htm' hT) ?_
  rintro - rfl
  simp only [listDel_task, setTask_task, Function.update_self, Option.some.injEq] at hk
  subst hk
  rw [htm, Option.some.injEq, Val.str.injEq] at htm'
  exact hT htm'.symm

theorem Store.Listed.acquire (hI : s.Listed P L) (name : String) {id : String} (htm : h.tm = some (.str id)) (v : Val) :
    ((s.setTask (P ++ name) h).listSet (L ++ id) name v).Listed P L := by
  intro n h' T hk htm' hT
  by_cases hn : n = name
  · subst hn
    simp only [listSet_task, setTask_task, Function.update_self, Option.some.injEq] at hk
    subst hk
    rw [htm, Option.some.injEq, Val.str.injEq] at htm'
    subst htm'
    simp [Store.listSet, AList.mem_insert]
  · have hne : P ++ n ≠ P ++ name := fun h => hn ((String.append_right_inj _).mp h)
    simp only [listSet_task, setTask_task, Function.update_of_ne hne] at hk
    exact mem_listSet_of_mem (hI n h' T hk htm' hT)

end Writes

section Steps

variable {P L : String} {s : Store}

theorem Command.commit_listed (hI : s.Listed P L) {c : Command} {h : TaskHash}
    (hc : (Call.command c).Consistent P L) (hw : c.written (s.task c.key) = some h) :
    (c.commit h s).Listed P L := by
  have htm := c.written_tm hw
  cases c with
  | startTask a =>
    obtain ⟨hkey, hlist⟩ := hc
    by_cases hq : a.Acquires h
    · have hset : (a.settle h).tm = some (.str a.iMyTm) := by rw [a.settle_tm_eq, if_pos hq]
      refine (hI.acquire a.iName hset a.iHeartBeat).congr ?_ ?_
      · simp only [commit, StartTask.commit, hkey]
        rfl
      · simp only [commit, StartTask.commit, if_pos hq, hlist]
        rfl
    · have hset : (a.settle h).tm = h.tm := by rw [a.settle_tm_eq, if_neg hq]
      refine (hI.setTask a.iKey (h := a.settle h) (by rwa [hset])).congr rfl ?_
      simp only [commit, StartTask.commit, if_neg hq]
      rfl
  | stopTask a =>
    obtain ⟨hkey, -⟩ := hc
    by_cases hq : h.tm = some (.str a.iMyTm)
    · have hset : (a.settle h).tm = some (.str "") := by rw [a.settle_tm_eq, if_pos hq]
      refine (hI.release a.iName a.iMyTmKey hset).congr ?_ ?_
      · simp only [commit, StopTask.commit, hkey]
        rfl
      · simp only [commit, StopTask.commit, if_pos hq]
        rfl
    · have hset : (a.settle h).tm = h.tm := by rw [a.settle_tm_eq, if_neg hq]
      refine (hI.setTask a.iKey (h := a.settle h) (by rwa [hset])).congr rfl ?_
      simp only [commit, StopTask.commit, if_neg hq]
      rfl
  | preStopTask a =>
    refine (hI.setTask a.iKey (h := h.bump) (by rwa [bump_tm])).congr ?_ ?_
    · exact (preStopTask a).commit_task h s
    · simp only [commit, PreStopTask.commit, PreStopTask.setTtl]
      split_ifs <;> rfl

theorem auditTask_listed (hI : s.Listed P L) {a : AuditTask} (hkey : a.iKey = P ++ a.iTaskName)
    (hlist : a.iTmTaskList = L ++ a.iTmId) : (exec (auditTask a) s).2.Listed P L := by
  rcases auditTask_cases (s := s) a with ⟨hs, hr⟩ | ⟨h, hs, hr | ⟨ht, hr⟩ | ⟨-, -, hr⟩ | ⟨-, -, hr⟩⟩ <;>
    rw [hr]
  · rw [hlist]
    refine hI.listDel ?_
    intro h hk
    rw [← hkey, hs] at hk
    cases hk
  · exact hI
  · rw [hlist]
    refine hI.listDel ?_
    intro h' hk
    rw [← hkey, hs, Option.some.injEq] at hk
    subst hk
    exact ht
  · rw [hkey]
    exact hI.release _ _ rfl
  · exact hI.listSet _ _ _

theorem takeRunning_listed (hI : s.Listed P L) {fromTm iKey iName iMyTmId iTmTasksKey : String}
    {iHeartBeat : Val} (hkey : iKey = P ++ iName) (hlist : iTmTasksKey = L ++ iMyTmId)
    (hbeat : tonumber (some iHeartBeat) ≠ none) :
    (exec (takeRunning fromTm iKey iName iMyTmId iTmTasksKey iHeartBeat) s).2.Listed P L := by
  subst hkey hlist
  rcases takeRunning_cases (s := s) fromTm (P ++ iName) iName iMyTmId (L ++ iMyTmId) iHeartBeat with
    hr | ⟨h, -, -, -, ⟨hq, -⟩ | ⟨q, hr⟩⟩
  · rwa [hr]
  · exact absurd hq hbeat
  · rw [hr]
    exact hI.acquire _ rfl _

theorem onTmNotifyUpdate_listed (hI : s.Listed P L) {a : OnTmNotifyUpdate} (hkey : a.iKey = P ++ a.iName) :
    (exec (onTmNotifyUpdate a) s).2.Listed P L := by
  rcases onTmNotifyUpdate_cases (s := s) a with hr | ⟨h, -, -, hr⟩
  · rwa [hr]
  · rw [hr, hkey]
    exact hI.release _ _ bump_tm

theorem updateTaskSap_listed (hI : s.Listed P L) {a : UpdateTaskSap} (htm : a.iTm = a.iMyTm ∨ a.iTm = "") :
    (exec (updateTaskSap a) s).2.Listed P L := by
  rcases updateTaskSap_cases (s := s) a with hr | ⟨h, n, hs, hmy, -, hr⟩
  · rwa [hr]
  · rw [hr]
    refine hI.setTask _ ?_
    rcases htm with h1 | h1
    · exact Or.inr ⟨h, hs, by rw [hmy, ← h1]; rfl⟩
    · exact Or.inl (by rw [← h1]; rfl)

/-- For a row-wise script only the entries of its own list need a look. -/
theorem RowWise.listed {id : String} {F : Option TaskHash × Option Val → Option TaskHash × Option Val}
    {s' : Store} (hw : RowWise P (L ++ id) F s s') (hI : s.Listed P L)
    (hF : ∀ n h', (F (s.row P (L ++ id) n)).1 = some h' → ∀ T, h'.tm = some (.str T) →
      (T = id → n ∈ s.tmTasks (L ++ id) → (F (s.row P (L ++ id) n)).2.isSome) ∧
      ((∃ h, s.task (P ++ n) = some h ∧ h.tm = some (.str T)) ∨
        (T = id ∧ (F (s.row P (L ++ id) n)).2.isSome))) : s'.Listed P L := by
  intro n h' T hk htm hT
  rcases hw.rows n with hr | hr
  · have hmem := hI n h' T ((congrArg Prod.fst hr).symm.trans hk) htm hT
    by_cases hTid : T = id
    · subst hTid
      rw [← AList.lookup_isSome] at hmem ⊢
      exact (congrArg Option.isSome (congrArg Prod.snd hr)).trans hmem
    · rwa [hw.lists _ fun h => hTid ((String.append_right_inj _).mp h)]
  · obtain ⟨hown, hold⟩ := hF n h' ((congrArg Prod.fst hr).symm.trans hk) T htm
    have hsome : (F (s.row P (L ++ id) n)).2.isSome → n ∈ s'.tmTasks (L ++ id) := by
      intro hq
      rw [← AList.lookup_isSome]
      exact (congrArg Option.isSome (congrArg Prod.snd hr)).trans hq
    rcases hold with ⟨h, hs, ht⟩ | ⟨rfl, hq⟩
    · have hmem := hI n h T hs ht hT
      by_cases hTid : T = id
      · subst hTid
        exact hsome (hown rfl hmem)
      · rwa [hw.lists _ fun h => hTid ((String.append_right_inj _).mp h)]
    · exact hsome hq

theorem loadEffect_tm (T : String) (h : TaskHash) (beat : Option Val) :
    ∃ h', (loadEffect T (some h, beat)).1 = some h' ∧ h'.tm = h.tm := by
  simp only [loadEffect]
  split_ifs
  · exact ⟨h, rfl, rfl⟩
  · exact ⟨h.bump, rfl, bump_tm⟩
  · exact ⟨h.bump, rfl, bump_tm⟩
  · exact ⟨h, rfl, rfl⟩

theorem loadAllTask_listed (hI : s.Listed P L) (order : ScanOrder) {a : LoadAllTask} (hP : a.iTaskPrefix = P)
    (hL : a.iTmTaskKeyPrefix = L)
    (hkeep : ∀ name ∈ s.tmTasks a.lMyTmTaskKey, ∀ h, s.task (a.iTaskPrefix ++ name) = some h →
      h.tm = some (.str a.iTmId) → tonumber h.opt ≠ some 0) :
    (exec (loadAllTask order a) s).2.Listed P L := by
  subst hP hL
  refine RowWise.listed (loadAllTask_rowWise order a s) hI ?_
  intro n h' hF T htm
  simp only [Store.row] at hF ⊢
  cases hs : s.task (a.iTaskPrefix ++ n) with
  | none => simp [hs, loadEffect] at hF
  | some h =>
    have hT : h.tm = some (.str T) := by
      obtain ⟨h₁, h₁F, h₁tm⟩ := loadEffect_tm a.iTmId h ((s.tmTasks a.lMyTmTaskKey).lookup n)
      have heq : h₁ = h' := Option.some.inj (h₁F.symm.trans (hs ▸ hF))
      rw [← h₁tm, heq, htm]
    refine ⟨?_, Or.inl ⟨h, rfl, hT⟩⟩
    rintro rfl hmem
    rw [← AList.lookup_isSome] at hmem
    simpa [loadEffect, hT, hkeep n (AList.lookup_isSome.mp hmem) h hs hT] using hmem

theorem preemptTmTask_listed (hI : s.Listed P L) (order : ScanOrder) {a : PreemptTmTask}
    (hP : a.iTaskPrefix = P) (hL : a.iTmTaskKeyPrefix = L) (hbeat : tonumber (some a.iHeartBeat) ≠ none) :
    (exec (preemptTmTask order a) s).2.Listed P L := by
  subst hP hL
  refine RowWise.listed (preemptTmTask_rowWise order a s) hI ?_
  intro n h' hF T htm
  obtain ⟨q, hq⟩ := Option.ne_none_iff_exists'.mp hbeat
  simp only [Store.row] at hF ⊢
  cases hs : s.task (a.iTaskPrefix ++ n) with
  | none => simp [hs, preemptEffect] at hF
  | some h =>
    simp only [hs, preemptEffect] at hF ⊢
    split_ifs at hF ⊢ with hg
    · simp only [Option.some.injEq] at hF
      subst hF
      rw [TaskHash.takenBy, Option.some.injEq, Val.str.injEq] at htm
      simp [hq, htm]
    · simp only [Option.some.injEq] at hF
      subst hF
      exact ⟨fun _ hmem => AList.lookup_isSome.mpr hmem, Or.inl ⟨h, rfl, htm⟩⟩

theorem Ownership.run_listed (hI : s.Listed P L) {c : Ownership} (hc : (Call.ownership c).Consistent P L)
    (hk : (Call.ownership c).KeepsEntries s) : ((Call.ownership c).run s).Listed P L := by
  rw [ownership_run]
  cases c with
  | auditTask a => simp only [prog, exec_discard]; exact auditTask_listed hI hc.1 hc.2
  | loadAllTask order a => simp only [prog, exec_discard]; exact loadAllTask_listed hI order hc.1 hc.2 hk
  | loadbalancePreemptTask a => simp only [prog, exec_discard]; exact takeRunning_listed hI hc.1 hc.2 hk
  | postponedPreemptTask a => simp only [prog, exec_discard]; exact takeRunning_listed hI hc.1 hc.2 hk
  | preemptTmTask order a => simp only [prog, exec_discard]; exact preemptTmTask_listed hI order hc.1 hc.2 hk
  | onTmNotifyControl a => simp only [prog, exec_discard]; exact takeRunning_listed hI hc.1 hc.2 hk
  | onTmNotifyUpdate a => simp only [prog, exec_discard]; exact onTmNotifyUpdate_listed hI hc.1
  | updateTaskSap a => simp only [prog, exec_discard]; exact updateTaskSap_listed hI hc.2

/-- One step: no call that keeps its entries, and no expiry, breaks the lists. -/
theorem Store.Listed.next (hI : s.Listed P L) {e : Event} (hok : keepingOk P L s e) : (s.next e).Listed P L := by
  cases e with
  | call c =>
    obtain ⟨⟨-, hc⟩, hkeep⟩ := hok
    cases c with
    | command c =>
      simp only [Store.next, c.run_eq]
      cases hw : c.written (s.task c.key) with
      | none => exact hI
      | some h => exact c.commit_listed hI hc hw
    | ownership c => exact c.run_listed hI hc (hkeep _ rfl)
  | expire key =>
    intro n h T hk htm hT
    by_cases hn : P ++ n = key
    · simp [Store.next, Store.expireKey, hn] at hk
    · simp only [Store.next, Store.expireKey, Function.update_of_ne hn] at hk
      exact hI n h T hk htm hT

end Steps

/-- A stop by a manager that does not own the task, a reload by the owner and a
restart leave the task running, owned, and listed with nobody. -/
theorem orphaned_after_reload :
    ∃ s, Run Store.next (consistentOk "task:" "tm:") Store.empty
        [.call (Sample.startCall "A" "x" 1), .call (Sample.stopCall "B" "x" 2), .call (Sample.loadAllCall "A"),
          .call (Sample.startCall "A" "x" 3)] s ∧
      ¬ s.NoOrphan "task:" "tm:" := by
  have idA : ("A" : String) ≠ "" := by decide
  have idB : ("B" : String) ≠ "" := by decide
  refine ⟨_, .cons ⟨idA, rfl, rfl⟩ (.cons ⟨idB, rfl, rfl⟩ (.cons ⟨idA, rfl, rfl⟩
    (.cons ⟨idA, rfl, rfl⟩ (.nil _)))), ?_⟩
  simp only [Store.next]
  generalize hs : (Sample.startCall "A" "x" 3).run _ = s
  have hrunning : (s.task "task:x").map (fun h => (h.opt, h.tm)) = some (some (.num 1), some (.str "A")) := by
    rw [← hs]
    decide +kernel
  have hlist : "x" ∉ s.tmTasks "tm:A" := by
    rw [← hs]
    decide +kernel
  obtain ⟨h, hk, hf⟩ := Option.map_eq_some_iff.mp hrunning
  rw [Prod.mk.injEq] at hf
  intro hno
  exact hlist (hno "x" h "A" hk hf.1 hf.2 idA)

/-- In every run in which each `load_all_task` finds no stopped task still owned by
its manager and the heartbeats of preempting calls are numbers, no running task is
orphaned in any state. -/
theorem no_orphan_while_keeping {P L : String} {es : List Event} {s : Store}
    (hrun : Run Store.next (keepingOk P L) Store.empty es s) : s.NoOrphan P L := by
  have hI : s.Listed P L := by
    refine hrun.invariant (I := fun s => s.Listed P L) (fun s e hok hI => hI.next hok) ?_
    intro name h T hk
    cases hk
  exact fun name h T hk _ htm hT => hI name h T hk htm hT

/-- A reload by the manager that runs the task keeps it listed. -/
theorem no_orphan_start_reload :
    "x" ∈ ((Sample.loadAllCall "A").run ((Sample.startCall "A" "x" 1).run Store.empty)).tmTasks "tm:A" := by
  have idA : ("A" : String) ≠ "" := by decide
  have hrunning : ∀ name ∈ (((Sample.startCall "A" "x" 1).run Store.empty).tmTasks "tm:A").keys,
      (((Sample.startCall "A" "x" 1).run Store.empty).task ("task:" ++ name)).bind (tonumber ·.opt) ≠ some 0 := by
    decide +kernel
  have hkeep : (Sample.loadAllCall "A").KeepsEntries ((Sample.startCall "A" "x" 1).run Store.empty) := by
    intro name hname h hk _ hopt
    refine hrunning name hname ?_
    rw [show "task:" ++ name = (Sample.loadAll "A").iTaskPrefix ++ name from rfl, hk, Option.bind_some, hopt]
  have hrun : Run Store.next (keepingOk "task:" "tm:") Store.empty
      [.call (Sample.startCall "A" "x" 1), .call (Sample.loadAllCall "A")]
      ((Sample.loadAllCall "A").run ((Sample.startCall "A" "x" 1).run Store.empty)) := by
    refine .cons ⟨⟨idA, rfl, rfl⟩, ?_⟩ (.cons ⟨⟨idA, rfl, rfl⟩, ?_⟩ (.nil _))
    · rintro c ⟨⟩
      trivial
    · rintro c ⟨⟩
      exact hkeep
  have hfinal : (((Sample.loadAllCall "A").run ((Sample.startCall "A" "x" 1).run Store.empty)).task "task:x").map
      (fun h => (h.opt, h.tm)) = some (some (.num 1), some (.str "A")) := by
    decide +kernel
  obtain ⟨h, hk, hf⟩ := Option.map_eq_some_iff.mp hfinal
  rw [Prod.mk.injEq] at hf
  exact no_orphan_while_keeping hrun "x" h "A" hk hf.1 hf.2 idA

end CppBase.TaskStore
