import CppBase.Sanity.CommandEffects
import CppBase.Sanity.LoopEffects

/-! The life of a single task: what one event of the store can do to the hash
at one key. `TaskStep` says it once; every store-wide run projects onto it. -/

namespace CppBase.TaskStore

open CppBase.Lib

/-- The changes an ownership script can make to a task hash. -/
def Ownership.Moves : Ownership → TaskHash → TaskHash → Prop
  | .auditTask a, h, h' => h.tm = some (.str a.iTmId) ∧ tonumber h.opt = some 0 ∧ h' = h.bump.release
  | .loadAllTask _ a, h, h' => h.tm = some (.str a.iTmId) ∧ h' = h.bump
  | .loadbalancePreemptTask a, h, h' =>
    h.tm = some (.str a.iOldTmId) ∧ tonumber h.opt = some 1 ∧ h' = h.takenBy a.iMyTmId 1
  | .postponedPreemptTask a, h, h' =>
    h.tm = some (.str "") ∧ tonumber h.opt = some 1 ∧ h' = h.takenBy a.iMyTmId 1
  | .preemptTmTask _ a, h, h' =>
    h.tm = some (.str a.iOldTmId) ∧ tonumber h.opt = some 1 ∧ h' = h.takenBy a.iMyTmId 0
  | .onTmNotifyControl a, h, h' =>
    h.tm = some (.str "") ∧ tonumber h.opt = some 1 ∧ h' = h.takenBy a.iMyTmId 1
  | .onTmNotifyUpdate _, h, h' => tonumber h.opt = some 0 ∧ h' = h.release.bump
  | .updateTaskSap a, h, h' =>
    h.tm = some (.str a.iMyTm) ∧ ∃ n, tonumber h.ver = some n ∧ h' = a.write n h

/-- The hash at key `k`, before and after an event. -/
inductive TaskStep (k : String) : Event → Option TaskHash → Option TaskHash → Prop
  | same (e : Event) (o : Option TaskHash) : TaskStep k e o o
  | command (c : Command) {o : Option TaskHash} {h : TaskHash} :
      c.key = k → c.written o = some h → TaskStep k (.call (.command c)) o (some (c.settle h))
  | ownership (c : Ownership) {h h' : TaskHash} :
      c.Moves h h' → TaskStep k (.call (.ownership c)) (some h) (some h')
  | expire (o : Option TaskHash) : TaskStep k (.expire k) o none

theorem ownership_run (c : Ownership) (s : Store) : (Call.ownership c).run s = (exec c.prog s).2 := rfl

/-- A changed entry of the task map is the one that was set. -/
theorem update_task {s : Store} {k key : String} {h h₀ : TaskHash} {P : TaskHash → TaskHash → Prop}
    (hs : s.task key = some h₀) (hP : P h₀ h) :
    Function.update s.task key (some h) k = s.task k ∨
      ∃ x y, s.task k = some x ∧ Function.update s.task key (some h) k = some y ∧ P x y := by
  by_cases hk : k = key
  · subst hk
    exact Or.inr ⟨h₀, h, hs, by simp, hP⟩
  · exact Or.inl (by simp [hk])

theorem takeRunning_task {s : Store} {f key n my lk : String} {hb : Val} (k : String) :
    (exec (takeRunning f key n my lk hb) s).2.task k = s.task k ∨
      ∃ h h', s.task k = some h ∧ (exec (takeRunning f key n my lk hb) s).2.task k = some h' ∧
        h.tm = some (.str f) ∧ tonumber h.opt = some 1 ∧ h' = h.takenBy my 1 := by
  rcases takeRunning_cases (s := s) f key n my lk hb with hr | ⟨h, hs, ht, ho, ⟨-, hr⟩ | ⟨q, hr⟩⟩
  · exact Or.inl (by rw [hr])
  all_goals
    rw [hr]
    exact update_task (P := fun x y => x.tm = some (.str f) ∧ tonumber x.opt = some 1 ∧ y = x.takenBy my 1)
      hs ⟨ht, ho, rfl⟩

theorem RowWise.task {P L : String} {F : Option TaskHash × Option Val → Option TaskHash × Option Val}
    {s s' : Store} (hw : RowWise P L F s s') {R : TaskHash → TaskHash → Prop}
    (hF : ∀ o v, (F (o, v)).1 = o ∨ ∃ h h', o = some h ∧ (F (o, v)).1 = some h' ∧ R h h') (k : String) :
    s'.task k = s.task k ∨ ∃ h h', s.task k = some h ∧ s'.task k = some h' ∧ R h h' := by
  by_cases hk : ∃ n, k = P ++ n
  · obtain ⟨n, rfl⟩ := hk
    rcases hw.rows n with hr | hr
    · exact Or.inl (congrArg Prod.fst hr)
    · have hfst := congrArg Prod.fst hr
      have hfst' : s'.task (P ++ n) = (F (s.row P L n)).1 := hfst
      rw [hfst']
      exact hF _ _
  · exact Or.inl (hw.tasks k fun n hn => hk ⟨n, hn⟩)

theorem Ownership.task_cases (c : Ownership) (s : Store) (k : String) :
    ((Call.ownership c).run s).task k = s.task k ∨
      ∃ h h', s.task k = some h ∧ ((Call.ownership c).run s).task k = some h' ∧ c.Moves h h' := by
  rw [ownership_run]
  cases c with
  | auditTask a =>
    simp only [prog, exec_discard]
    rcases auditTask_cases (s := s) a with ⟨-, hr⟩ | ⟨h, hs, hr | ⟨-, hr⟩ | ⟨ht, ho, hr⟩ | ⟨-, -, hr⟩⟩
    · exact Or.inl (by rw [hr]; rfl)
    · exact Or.inl (by rw [hr])
    · exact Or.inl (by rw [hr]; rfl)
    · rw [hr]
      exact update_task (P := (Ownership.auditTask a).Moves) hs ⟨ht, ho, rfl⟩
    · exact Or.inl (by rw [hr]; rfl)
  | loadAllTask order a =>
    simp only [prog, exec_discard]
    refine (loadAllTask_rowWise order a s).task (R := (Ownership.loadAllTask order a).Moves) ?_ k
    intro o v
    cases o with
    | none => exact Or.inl rfl
    | some h =>
      simp only [loadEffect]
      split_ifs with h1 h2 <;> simp [Moves, *]
  | loadbalancePreemptTask a => simp only [prog, exec_discard]; exact takeRunning_task k
  | postponedPreemptTask a => simp only [prog, exec_discard]; exact takeRunning_task k
  | preemptTmTask order a =>
    simp only [prog, exec_discard]
    refine (preemptTmTask_rowWise order a s).task (R := (Ownership.preemptTmTask order a).Moves) ?_ k
    intro o v
    cases o with
    | none => exact Or.inl rfl
    | some h =>
      simp only [preemptEffect]
      split_ifs with h1
      · exact Or.inr ⟨h, _, rfl, rfl, h1.1, h1.2.1, rfl⟩
      · exact Or.inl rfl
  | onTmNotifyControl a => simp only [prog, exec_discard]; exact takeRunning_task k
  | onTmNotifyUpdate a =>
    simp only [prog, exec_discard]
    rcases onTmNotifyUpdate_cases (s := s) a with hr | ⟨h, hs, ho, hr⟩
    · exact Or.inl (by rw [hr])
    · rw [hr]
      exact update_task (P := (Ownership.onTmNotifyUpdate a).Moves) hs ⟨ho, rfl⟩
  | updateTaskSap a =>
    simp only [prog, exec_discard]
    rcases updateTaskSap_cases (s := s) a with hr | ⟨h, n, hs, ht, hn, hr⟩
    · exact Or.inl (by rw [hr])
    · rw [hr]
      exact update_task (P := (Ownership.updateTaskSap a).Moves) hs ⟨ht, n, hn, rfl⟩

theorem Command.task_run (c : Command) (s : Store) (k : String) :
    ((Call.command c).run s).task k = s.task k ∨
      (c.key = k ∧ ∃ h, c.written (s.task k) = some h ∧
        ((Call.command c).run s).task k = some (c.settle h)) := by
  rw [c.run_eq]
  cases hw : c.written (s.task c.key) with
  | none => exact Or.inl rfl
  | some h =>
    simp only [Option.elim_some, commit_task]
    by_cases hk : c.key = k
    · subst hk
      exact Or.inr ⟨rfl, h, hw, by simp⟩
    · exact Or.inl (by simp [Ne.symm hk])

/-- Every event of the store is a step of each task. -/
theorem next_taskStep (s : Store) (e : Event) (k : String) :
    TaskStep k e (s.task k) ((s.next e).task k) := by
  cases e with
  | call c =>
    cases c with
    | command c =>
      rcases c.task_run s k with hr | ⟨hk, h, hw, hr⟩ <;> simp only [Store.next, hr]
      · exact .same _ _
      · exact .command c hk hw
    | ownership c =>
      rcases c.task_cases s k with hr | ⟨h, h', hs, hr, hm⟩
      · simp only [Store.next, hr]
        exact .same _ _
      · simp only [Store.next, hs, hr]
        exact .ownership c hm
  | expire key =>
    by_cases hk : k = key
    · subst hk
      simp only [Store.next, Store.expireKey, Function.update_self]
      exact .expire _
    · simp only [Store.next, Store.expireKey, Function.update_of_ne hk]
      exact .same _ _

theorem Ownership.names_run (c : Ownership) (s : Store) :
    ((Call.ownership c).run s).names = s.names := by
  have take : ∀ {f key n my lk hb}, (exec (takeRunning f key n my lk hb) s).2.names = s.names := by
    intro f key n my lk hb
    rcases takeRunning_cases (s := s) f key n my lk hb with hr | ⟨h, -, -, -, ⟨-, hr⟩ | ⟨q, hr⟩⟩ <;>
      rw [hr] <;> rfl
  rw [ownership_run]
  cases c with
  | auditTask a =>
    simp only [prog, exec_discard]
    rcases auditTask_cases (s := s) a with ⟨-, hr⟩ | ⟨h, -, hr | ⟨-, hr⟩ | ⟨-, -, hr⟩ | ⟨-, -, hr⟩⟩ <;>
      rw [hr] <;> rfl
  | loadAllTask order a => simp only [prog, exec_discard]; exact (loadAllTask_rowWise order a s).names
  | loadbalancePreemptTask a => simp only [prog, exec_discard]; exact take
  | postponedPreemptTask a => simp only [prog, exec_discard]; exact take
  | preemptTmTask order a => simp only [prog, exec_discard]; exact (preemptTmTask_rowWise order a s).names
  | onTmNotifyControl a => simp only [prog, exec_discard]; exact take
  | onTmNotifyUpdate a =>
    simp only [prog, exec_discard]
    rcases onTmNotifyUpdate_cases (s := s) a with hr | ⟨h, -, -, hr⟩
    · rw [hr]
    · rw [hr]; rfl
  | updateTaskSap a =>
    simp only [prog, exec_discard]
    rcases updateTaskSap_cases (s := s) a with hr | ⟨h, n, -, -, -, hr⟩
    · rw [hr]
    · rw [hr]; rfl

end CppBase.TaskStore
