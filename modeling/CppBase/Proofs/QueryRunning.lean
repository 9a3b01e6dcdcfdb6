import CppBase.Proofs.AllTaskSet
import CppBase.Spec.QueryTasks

/-! `query_tasks` lists the tasks whose last accepted command is a start for the application and
the type asked for. -/

namespace CppBase.TaskStore

open CppBase.Lib

variable {P A key : String} {s : Store} {m : Option StartTask}

/-- The start that a task runs by, after one more event in the store `s`. -/
def startedBy (key : String) (s : Store) (m : Option StartTask) : Event → Option StartTask
  | .call (.command (.startTask a)) => if a.iKey = key ∧ (a.written (s.task key)).isSome then some a else m
  | .call (.command (.stopTask a)) => if a.iKey = key ∧ (a.written (s.task key)).isSome then none else m
  | .call _ => m
  | .expire k => if k = key then none else m

def followTask (key : String) (x : Store × Option StartTask) (e : Event) : Store × Option StartTask :=
  (x.1.next e, startedBy key x.1 x.2 e)

def runningStart (key : String) (es : List Event) : Option StartTask :=
  (es.foldl (followTask key) (Store.empty, none)).2

/-- A task runs exactly if it was started, and then with what its start said. -/
structure RunsBy (key : String) (s : Store) (m : Option StartTask) : Prop where
  running : ∀ h, s.task key = some h → h.opt = some (.num 1) →
    ∃ a, m = some a ∧ h.appId = some a.iAppId ∧ h.taskType = some a.iType
  started : ∀ a, m = some a → s.Running key

/-- Nothing but these three fields matters. -/
theorem RunsBy.congr (hr : RunsBy key s m) {s' : Store}
    (h : (s'.task key).map (fun h => (h.opt, h.appId, h.taskType)) =
      (s.task key).map fun h => (h.opt, h.appId, h.taskType)) :
    RunsBy key s' m := by
  have hback : ∀ h', s'.task key = some h' → ∃ h₀, s.task key = some h₀ ∧ h₀.opt = h'.opt ∧ h₀.appId = h'.appId ∧
      h₀.taskType = h'.taskType := by
    intro h' hs'
    rw [hs', Option.map_some, eq_comm, Option.map_eq_some_iff] at h
    obtain ⟨h₀, hs, heq⟩ := h
    exact ⟨h₀, hs, by simpa using heq⟩
  refine ⟨fun h' hs' hopt => ?_, fun a ha => ?_⟩
  · obtain ⟨h₀, hs, ho, happ, htype⟩ := hback h' hs'
    obtain ⟨a, ha, happ', htype'⟩ := hr.running h₀ hs (ho.trans hopt)
    exact ⟨a, ha, happ ▸ happ', htype ▸ htype'⟩
  · obtain ⟨h₀, hs, hopt⟩ := hr.started a ha
    rw [hs, Option.map_some, Option.map_eq_some_iff] at h
    obtain ⟨h', hs', heq⟩ := h
    exact ⟨h', hs', by simp_all⟩

theorem fields_of_versioned {h h' : TaskHash} (hv : h'.versioned = h.versioned) :
    (h'.opt, h'.appId, h'.taskType) = (h.opt, h.appId, h.taskType) := by
  have happ : h'.appId = h.appId := congrArg Versioned.appId hv
  have htype : h'.taskType = h.taskType := congrArg Versioned.taskType hv
  rw [opt_eq_of_versioned hv, happ, htype]

theorem Command.task_run_cases (c : Command) (s : Store) (key : String) :
    ((Call.command c).run s).task key = s.task key ∧ (key ≠ c.key ∨ c.written (s.task key) = none) ∨
      key = c.key ∧ ∃ h, c.written (s.task key) = some h ∧ ((Call.command c).run s).task key = some (c.settle h) := by
  rw [c.run_eq s]
  by_cases hkey : key = c.key
  · subst hkey
    cases hw : c.written (s.task c.key) with
    | none => exact .inl ⟨rfl, .inr rfl⟩
    | some h =>
      refine .inr ⟨rfl, h, rfl, ?_⟩
      rw [Option.elim_some, c.commit_task, Function.update_self]
  · left
    refine ⟨?_, .inl hkey⟩
    cases c.written (s.task c.key) with
    | none => rfl
    | some h => rw [Option.elim_some, c.commit_task, Function.update_of_ne hkey]

theorem next_call (s : Store) (c : Call) : s.next (.call c) = c.run s := rfl

theorem runsBy_startTask (hr : RunsBy key s m) (a : StartTask) :
    RunsBy key (s.next (.call (.command (.startTask a)))) (startedBy key s m (.call (.command (.startTask a)))) := by
  rw [next_call]
  obtain ⟨htask, hnot⟩ | ⟨rfl, h, hw, htask⟩ := (Command.startTask a).task_run_cases s key
  · have hm : startedBy key s m (.call (.command (.startTask a))) = m := by
      refine if_neg ?_
      rintro ⟨hkey, hsome⟩
      obtain hne | hnone := hnot
      · exact hne hkey.symm
      · simp only [Command.written] at hnone
        simp [hnone] at hsome
    rw [hm]
    exact hr.congr (congrArg _ htask)
  · have hw' : a.written (s.task a.iKey) = some h := hw
    have hm : startedBy a.iKey s m (.call (.command (.startTask a))) = some a := if_pos ⟨rfl, by simp [hw']⟩
    have hfields : h.opt = some (.num 1) ∧ h.appId = some a.iAppId ∧ h.taskType = some a.iType := by
      obtain ⟨-, rfl⟩ | ⟨h₀, -, -, rfl⟩ := a.written_inv hw'
      · exact ⟨rfl, rfl, rfl⟩
      · exact ⟨rfl, rfl, rfl⟩
    have hsettled := fields_of_versioned ((Command.startTask a).settle_versioned h)
    simp only [Prod.mk.injEq] at hsettled
    rw [show (Command.startTask a).key = a.iKey from rfl, hm]
    refine ⟨fun h' hs' _ => ⟨a, rfl, ?_⟩, fun _ _ => ⟨_, htask, hsettled.1.trans hfields.1⟩⟩
    cases htask.symm.trans hs'
    exact ⟨hsettled.2.1.trans hfields.2.1, hsettled.2.2.trans hfields.2.2⟩

theorem runsBy_stopTask (hr : RunsBy key s m) (a : StopTask) :
    RunsBy key (s.next (.call (.command (.stopTask a)))) (startedBy key s m (.call (.command (.stopTask a)))) := by
  rw [next_call]
  obtain ⟨htask, hnot⟩ | ⟨rfl, h, hw, htask⟩ := (Command.stopTask a).task_run_cases s key
  · have hm : startedBy key s m (.call (.command (.stopTask a))) = m := by
      refine if_neg ?_
      rintro ⟨hkey, hsome⟩
      obtain hne | hnone := hnot
      · exact hne hkey.symm
      · simp only [Command.written] at hnone
        simp [hnone] at hsome
    rw [hm]
    exact hr.congr (congrArg _ htask)
  · have hw' : a.written (s.task a.iKey) = some h := hw
    have hm : startedBy a.iKey s m (.call (.command (.stopTask a))) = none := if_pos ⟨rfl, by simp [hw']⟩
    have hopt : h.opt = some (.num 0) := by
      obtain ⟨-, rfl⟩ | ⟨h₀, -, ⟨-, -, rfl⟩ | ⟨-, rfl⟩⟩ := a.written_inv hw'
      · rfl
      · rfl
      · rfl
    have hsettled := opt_eq_of_versioned ((Command.stopTask a).settle_versioned h)
    rw [show (Command.stopTask a).key = a.iKey from rfl, hm]
    refine ⟨fun h' hs' hopt' => ?_, fun b hb => by cases hb⟩
    cases htask.symm.trans hs'
    rw [hsettled, hopt] at hopt'
    simp at hopt'

theorem runsBy_preStopTask (hr : RunsBy key s m) (a : PreStopTask) :
    RunsBy key (s.next (.call (.command (.preStopTask a)))) m := by
  rw [next_call]
  obtain ⟨htask, -⟩ | ⟨rfl, h, hw, htask⟩ := (Command.preStopTask a).task_run_cases s key
  · exact hr.congr (congrArg _ htask)
  · have hw' : a.written (s.task a.iKey) = some h := hw
    have hsettled := fields_of_versioned ((Command.preStopTask a).settle_versioned h)
    obtain ⟨hnew, rfl⟩ | ⟨h₀, now, hold, hwrite⟩ := a.written_inv hw'
    · -- a task that was not there is not there to run
      refine ⟨fun h' hs' hopt' => ?_, fun b hb => ?_⟩
      · cases htask.symm.trans hs'
        simp only [Prod.mk.injEq] at hsettled
        rw [hsettled.1] at hopt'
        simp [PreStopTask.create] at hopt'
      · obtain ⟨h₁, hs, -⟩ := hr.started b hb
        cases hnew.symm.trans hs
    · refine hr.congr ?_
      have hsame : (h.opt, h.appId, h.taskType) = (h₀.opt, h₀.appId, h₀.taskType) := by
        obtain ⟨-, -, rfl⟩ | ⟨-, rfl⟩ := hwrite
        · rfl
        · rfl
      have hold' : s.task (Command.preStopTask a).key = some h₀ := hold
      rw [htask, hold', Option.map_some, Option.map_some, hsettled, hsame]

theorem runsBy_next (hr : RunsBy key s m) (e : Event) : RunsBy key (s.next e) (startedBy key s m e) := by
  cases e with
  | call c =>
    cases c with
    | command c =>
      cases c with
      | startTask a => exact runsBy_startTask hr a
      | stopTask a => exact runsBy_stopTask hr a
      | preStopTask a => exact runsBy_preStopTask hr a
    | ownership c =>
      rw [next_call]
      refine hr.congr ?_
      rcases c.task_cases s key with hsame | ⟨h, h', hs, hs', hm⟩
      · rw [hsame]
      · rw [hs', hs, Option.map_some, Option.map_some, fields_of_versioned hm.versioned]
  | expire k =>
    by_cases hk : k = key
    · subst hk
      rw [show startedBy k s m (.expire k) = none from if_pos rfl]
      refine ⟨fun h hs _ => ?_, fun b hb => by cases hb⟩
      simp [Store.next, Store.expireKey] at hs
    · rw [show startedBy key s m (.expire k) = m from if_neg hk]
      refine hr.congr (congrArg _ ?_)
      simp [Store.next, Store.expireKey, Function.update_of_ne (Ne.symm hk)]

theorem exec_queryLoop (a : QueryTasks) (names : List String) :
    exec (queryLoop a names) s = (.ok (names.filter fun name =>
      ((s.task (a.iTaskPrefix ++ name)).bind (·.appId)).getD (.str "invalid") = a.iAppid ∧
        ((s.task (a.iTaskPrefix ++ name)).bind (·.taskType)).getD (.str "invalid") = a.iType), s) := by
  induction names with
  | nil => rfl
  | cons name rest ih =>
    rw [queryLoop, exec_bind_ok (exec_hget _ _ _), exec_bind_ok (exec_hget _ _ _), exec_bind_ok ih, exec_pure,
      List.filter_cons]
    simp only [decide_eq_true_eq]

/-- In every state that the scripts lead to from the empty store, `query_tasks` lists each task once
whose last accepted start, with no stop accepted since, was for this text of the application and
this text of the type. -/
theorem queryTasks_lists_started {es : List Event} (h : Run Store.next (allTaskOk P A) Store.empty es s)
    (order : ScanOrder) (iAppid iType : Val) :
    ∃ collect, exec (queryTasks order ⟨A, P, iAppid, iType⟩) s = (.ok collect, s) ∧ collect.Nodup ∧
      ∀ name, name ∈ collect ↔ ∃ a, runningStart (P ++ name) es = some a ∧ a.iAppId = iAppid ∧ a.iType = iType := by
  have hnames : s.NamesRunning P A :=
    h.invariant (I := Store.NamesRunning P A) (fun _ e => namesRunning_step e)
      (by intro n; simp [Store.empty, Store.Running])
  have hruns : ∀ key, RunsBy key s (runningStart key es) := by
    intro key
    have hstep : ∀ (x : Store × Option StartTask) (s : Store) (e : Event), allTaskOk P A s e →
        x.1 = s ∧ RunsBy key s x.2 →
          (followTask key x e).1 = s.next e ∧ RunsBy key (s.next e) (followTask key x e).2 := by
      rintro x s e - ⟨rfl, hr⟩
      exact ⟨rfl, runsBy_next hr e⟩
    have hsim := h.simulates (R := fun x s => x.1 = s ∧ RunsBy key s x.2) hstep
      (x := (Store.empty, none)) ⟨rfl, by simp [Store.empty], by simp⟩
    exact hsim.2
  have hperm := order.perm ((s.names A).sort (· ≤ ·))
  refine ⟨_, (exec_bind_ok (exec_gets _ _) _).trans (exec_queryLoop _ _), ?_, fun name => ?_⟩
  · exact ((Finset.sort_nodup _ _).perm hperm.symm).filter _
  · rw [List.mem_filter, hperm.mem_iff, Finset.mem_sort, hnames name, decide_eq_true_eq]
    constructor
    · rintro ⟨⟨hash, hs, hopt⟩, happ, htype⟩
      obtain ⟨a, ha, happ', htype'⟩ := (hruns (P ++ name)).running hash hs hopt
      refine ⟨a, ha, ?_, ?_⟩
      · simpa [hs, happ'] using happ
      · simpa [hs, htype'] using htype
    · rintro ⟨a, ha, rfl, rfl⟩
      obtain ⟨hash, hs, hopt⟩ := (hruns (P ++ name)).started a ha
      obtain ⟨b, hb, happ, htype⟩ := (hruns (P ++ name)).running hash hs hopt
      cases ha.symm.trans hb
      exact ⟨⟨hash, hs, hopt⟩, by simp [hs, happ], by simp [hs, htype]⟩

/-- Of two tasks one is stopped. The other is listed for `7`, and not for `07`. -/
theorem queryTasks_lists_started_two :
    ∃ s collect other, exec (queryTasks Sample.inOrder ⟨"all", "task:", .num 7, .str "mix"⟩) s = (.ok collect, s) ∧
      exec (queryTasks Sample.inOrder ⟨"all", "task:", .numeral 7 "07", .str "mix"⟩) s = (.ok other, s) ∧
      "y" ∈ collect ∧ "x" ∉ collect ∧ "y" ∉ other := by
  have hrun : Run Store.next (allTaskOk "task:" "all") Store.empty
      [.call (Sample.startCall "A" "x" 1), .call (Sample.startCall "A" "y" 1), .call (Sample.stopCall "B" "x" 2)] _ :=
    .cons ⟨rfl, rfl⟩ (.cons ⟨rfl, rfl⟩ (.cons ⟨rfl, rfl⟩ (.nil _)))
  obtain ⟨collect, hexec, -, hmem⟩ := queryTasks_lists_started hrun Sample.inOrder (.num 7) (.str "mix")
  obtain ⟨other, hexec', -, hlistedIff⟩ := queryTasks_lists_started hrun Sample.inOrder (.numeral 7 "07") (.str "mix")
  have hx : runningStart ("task:" ++ "x") [.call (Sample.startCall "A" "x" 1), .call (Sample.startCall "A" "y" 1),
      .call (Sample.stopCall "B" "x" 2)] = none := rfl
  have hy : runningStart ("task:" ++ "y") [.call (Sample.startCall "A" "x" 1), .call (Sample.startCall "A" "y" 1),
      .call (Sample.stopCall "B" "x" 2)] = some (Sample.start "A" "y" 1) := rfl
  refine ⟨_, collect, other, hexec, hexec', (hmem "y").mpr ⟨_, hy, rfl, rfl⟩, fun hlisted => ?_, fun hlisted => ?_⟩
  · obtain ⟨a, ha, -, -⟩ := (hmem "x").mp hlisted
    cases hx.symm.trans ha
  · obtain ⟨a, ha, happ, -⟩ := (hlistedIff "y").mp hlisted
    cases hy.symm.trans ha
    cases happ

end CppBase.TaskStore
