import CppBase.Sanity.Sample
import CppBase.Sanity.WellFormed

/-! The all-task set holds exactly the names of the running tasks. -/

namespace CppBase.TaskStore

open CppBase.Lib

def Store.Running (s : Store) (key : String) : Prop := ∃ h, s.task key = some h ∧ h.opt = some (.num 1)

/-- Starts and stops name the task by its key and use one all-task set; only a
key whose `opt` is 0 expires. All other calls are unrestricted. -/
def allTaskOk (taskPrefix allTaskKey : String) (s : Store) : Event → Prop
  | .call (.command (.startTask a)) => a.iKey = taskPrefix ++ a.iName ∧ a.iAllTaskKey = allTaskKey
  | .call (.command (.stopTask a)) => a.iKey = taskPrefix ++ a.iName ∧ a.iAllTaskKey = allTaskKey
  | .call _ => True
  | .expire key => ∃ h, s.task key = some h ∧ h.opt = some (.num 0)

def Store.NamesRunning (taskPrefix allTaskKey : String) (s : Store) : Prop :=
  ∀ name, name ∈ s.names allTaskKey ↔ s.Running (taskPrefix ++ name)

variable {P A : String} {s : Store}

theorem running_congr {s' : Store} {key : String} (h : (s'.task key).map (·.opt) = (s.task key).map (·.opt)) :
    s'.Running key ↔ s.Running key := by
  unfold Store.Running
  cases h1 : s.task key <;> cases h2 : s'.task key <;> simp_all

theorem Ownership.running_run (c : Ownership) (s : Store) (key : String) :
    ((Call.ownership c).run s).Running key ↔ s.Running key := by
  apply running_congr
  rcases c.task_cases s key with hr | ⟨h, h', hs, hr, hm⟩
  · rw [hr]
  · rw [hr, hs]
    simp [opt_eq_of_versioned hm.versioned]

theorem running_update (key : String) (h : TaskHash) (hs : s.task key = some h) :
    s.Running key ↔ h.opt = some (.num 1) := by
  simp [Store.Running, hs]

theorem Command.running_commit_ne (c : Command) (h : TaskHash) {key : String} (hne : key ≠ c.key) :
    (c.commit h s).Running key ↔ s.Running key := by
  apply running_congr
  rw [c.commit_task, Function.update_of_ne hne]

theorem Command.running_commit (c : Command) (h : TaskHash) :
    (c.commit h s).Running c.key ↔ h.opt = some (.num 1) := by
  rw [running_update c.key (c.settle h) (by rw [c.commit_task, Function.update_self]),
    opt_eq_of_versioned (c.settle_versioned h)]

theorem startTask_namesRunning (hI : s.NamesRunning P A) (a : StartTask) (hk : a.iKey = P ++ a.iName)
    (hA : a.iAllTaskKey = A) : ((Call.command (.startTask a)).run s).NamesRunning P A := by
  rw [Command.run_eq]
  cases hw : (Command.startTask a).written (s.task (Command.startTask a).key) with
  | none => exact hI
  | some h =>
    have hopt : h.opt = some (.num 1) := by
      simp only [Command.written] at hw
      rcases a.written_inv hw with ⟨-, rfl⟩ | ⟨h₀, -, -, rfl⟩ <;> rfl
    intro name
    have hnames : ((Command.startTask a).commit h s).names A = insert a.iName (s.names A) := by
      simp [Command.commit, StartTask.commit, hA]
    rw [Option.elim_some, hnames, Finset.mem_insert]
    by_cases hn : name = a.iName
    · subst hn
      have hrun := Command.running_commit (s := s) (.startTask a) h
      rw [Command.key, hk] at hrun
      simp [hrun, hopt]
    · rw [Command.running_commit_ne (.startTask a) h (by simpa [Command.key, hk] using hn), ← hI name]
      simp [hn]

theorem stopTask_namesRunning (hI : s.NamesRunning P A) (a : StopTask) (hk : a.iKey = P ++ a.iName)
    (hA : a.iAllTaskKey = A) : ((Call.command (.stopTask a)).run s).NamesRunning P A := by
  rw [Command.run_eq]
  cases hw : (Command.stopTask a).written (s.task (Command.stopTask a).key) with
  | none => exact hI
  | some h =>
    have hopt : h.opt = some (.num 0) := by
      simp only [Command.written] at hw
      rcases a.written_inv hw with ⟨-, rfl⟩ | ⟨h₀, -, ⟨-, -, rfl⟩ | ⟨-, rfl⟩⟩ <;> rfl
    intro name
    have hnames : ((Command.stopTask a).commit h s).names A = (s.names A).erase a.iName := by
      simp [Command.commit, StopTask.commit, hA]
    rw [Option.elim_some, hnames, Finset.mem_erase]
    by_cases hn : name = a.iName
    · subst hn
      have hrun := Command.running_commit (s := s) (.stopTask a) h
      rw [Command.key, hk] at hrun
      simp [hrun, hopt]
    · rw [Command.running_commit_ne (.stopTask a) h (by simpa [Command.key, hk] using hn), ← hI name]
      simp [hn]

/-- A pre-stop neither starts nor stops: what it creates is stopped. -/
theorem preStopTask_running (a : PreStopTask) (key : String) :
    ((Call.command (.preStopTask a)).run s).Running key ↔ s.Running key := by
  rw [Command.run_eq]
  cases hw : (Command.preStopTask a).written (s.task (Command.preStopTask a).key) with
  | none => rfl
  | some h =>
    rw [Option.elim_some]
    by_cases hk : key = (Command.preStopTask a).key
    · subst hk
      rw [Command.running_commit]
      simp only [Command.written] at hw
      rcases a.written_inv hw with ⟨ho, rfl⟩ | ⟨h₀, now, ho, ⟨-, -, rfl⟩ | ⟨-, rfl⟩⟩
      · simp [Store.Running, ho, PreStopTask.create]
      · simp [running_update _ _ ho, PreStopTask.write]
      · simp [running_update _ _ ho, PreStopTask.write]
    · exact Command.running_commit_ne _ _ hk

theorem preStopTask_names (a : PreStopTask) : ((Call.command (.preStopTask a)).run s).names = s.names := by
  rw [Command.run_eq]
  cases (Command.preStopTask a).written (s.task (Command.preStopTask a).key) with
  | none => rfl
  | some h =>
    simp only [Option.elim_some, Command.commit, PreStopTask.commit, PreStopTask.setTtl, setTask_names]
    split_ifs <;> rfl

theorem namesRunning_step (e : Event) (hok : allTaskOk P A s e) (hI : s.NamesRunning P A) :
    (s.next e).NamesRunning P A := by
  cases e with
  | call c =>
    cases c with
    | command c =>
      cases c with
      | startTask a => exact startTask_namesRunning hI a hok.1 hok.2
      | stopTask a => exact stopTask_namesRunning hI a hok.1 hok.2
      | preStopTask a =>
        intro name
        rw [Store.next, preStopTask_names, preStopTask_running]
        exact hI name
    | ownership c =>
      intro name
      rw [Store.next, c.names_run, c.running_run]
      exact hI name
  | expire key =>
    intro name
    obtain ⟨h, hk, ho⟩ := hok
    rw [show (s.next (.expire key)).names = s.names from rfl, hI name]
    by_cases hn : P ++ name = key
    · subst hn
      -- the expired task was stopped, so its name was not in the set
      simp [Store.next, Store.expireKey, Store.Running, hk, ho]
    · simp [Store.next, Store.expireKey, Store.Running, Function.update_of_ne hn]

/-- In every state reached from the empty store, a name is in the all-task set
exactly if its task exists and has `opt = 1`. -/
theorem allTaskSet_iff_running {es : List Event} (h : Run Store.next (allTaskOk P A) Store.empty es s)
    (name : String) :
    name ∈ s.names A ↔ ∃ h, s.task (P ++ name) = some h ∧ h.opt = some (.num 1) :=
  h.invariant (I := Store.NamesRunning P A) (fun _ e => namesRunning_step e)
    (by intro n; simp [Store.empty, Store.Running]) name

/-- A task started and then stopped by another manager is in neither. -/
theorem allTaskSet_start_stop :
    "x" ∈ ((Sample.stopCall "B" "x" 2).run ((Sample.startCall "A" "x" 1).run Store.empty)).names "all" ↔
      ∃ h, ((Sample.stopCall "B" "x" 2).run ((Sample.startCall "A" "x" 1).run Store.empty)).task ("task:" ++ "x") =
        some h ∧ h.opt = some (.num 1) := by
  have hrun : Run Store.next (allTaskOk "task:" "all") Store.empty
      [.call (Sample.startCall "A" "x" 1), .call (Sample.stopCall "B" "x" 2)]
      ((Sample.stopCall "B" "x" 2).run ((Sample.startCall "A" "x" 1).run Store.empty)) :=
    .cons ⟨rfl, rfl⟩ (.cons ⟨rfl, rfl⟩ (.nil _))
  exact allTaskSet_iff_running hrun "x"

end CppBase.TaskStore
