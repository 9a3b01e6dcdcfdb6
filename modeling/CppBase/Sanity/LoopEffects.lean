import CppBase.Lib.Fold
import CppBase.Sanity.OwnershipEffects

/-! `load_all_task` and `preempt_tm_task` go over the rows of a task list: a
row is a task's hash with its entry in the list. Each is a fold of its rounds
over some of the listed names, and the names are distinct. -/

namespace CppBase.TaskStore

open CppBase.Lib

def loadOneStore (a : LoadAllTask) (s : Store) (taskName : String) : Store :=
  match s.task (a.iTaskPrefix ++ taskName) with
  | none => s.listDel a.lMyTmTaskKey taskName
  | some h =>
    if h.tm = none then s
    else if h.tm = some (.str a.iTmId) then
      (if tonumber h.opt = some 0 then s.listDel a.lMyTmTaskKey taskName else s).setTask
        (a.iTaskPrefix ++ taskName) h.bump
    else s.listDel a.lMyTmTaskKey taskName

theorem exec_loadOne (a : LoadAllTask) (s : Store) (taskName : String) :
    (∃ row, exec (loadOne a taskName) s = (.ok row, loadOneStore a s taskName)) ∨
      ((∃ h, s.task (a.iTaskPrefix ++ taskName) = some h ∧ tonumber h.ver = none) ∧
        exec (loadOne a taskName) s = (.error .arithmetic, loadOneStore a s taskName)) := by
  unfold loadOne loadOneStore
  simp only [exec_bind, exec_existsKey, exec_hget, exec_hdelList, exec_ite]
  cases hs : s.task (a.iTaskPrefix ++ taskName) with
  | none => left; simp
  | some h =>
    simp only [Option.isSome_some, if_true, Option.bind_some]
    cases ht : h.tm with
    | none => left; simp [exec_map]
    | some t =>
      by_cases hm : t = .str a.iTmId
      · subst hm
        have hbump : ∀ u : Store, u.task = s.task →
            (exec (bumpVerIfAny (a.iTaskPrefix ++ taskName)) u =
              (.ok (), u.setTask (a.iTaskPrefix ++ taskName) h.bump)) ∨
            (tonumber h.ver = none ∧ exec (bumpVerIfAny (a.iTaskPrefix ++ taskName)) u =
              (.error .arithmetic, u.setTask (a.iTaskPrefix ++ taskName) h.bump)) := by
          intro u hu
          have hut : u.task (a.iTaskPrefix ++ taskName) = some h := by rw [hu, hs]
          rcases exec_bumpVerIfAny hut with hb | ⟨hv, -, hb⟩
          · exact Or.inl hb
          · have hsame : h.bump = h := by simp only [TaskHash.bump, hv]
            exact Or.inr ⟨hv, by rw [hb, hsame, setTask_self _ _ hut]⟩
        by_cases ho : tonumber h.opt = some 0
        · rcases hbump (s.listDel a.lMyTmTaskKey taskName) rfl with hb | ⟨hv, hb⟩
          · left; simp [exec_bind, exec_map, hs, ho, hb]
          · right; simp [exec_bind, hs, ho, hb, hv]
        · rcases hbump s rfl with hb | ⟨hv, hb⟩
          · left; simp [exec_bind, exec_map, hs, ho, hb]
          · right; simp [exec_bind, hs, ho, hb, hv]
      · left; simp [exec_bind, exec_map, hm]

def preemptOneStore (a : PreemptTmTask) (s : Store) (taskName : String) : Store :=
  match s.task (a.iTaskPrefix ++ taskName) with
  | none => s
  | some h =>
    if h.tm = some (.str a.iOldTmId) ∧ tonumber h.opt = some 1 ∧ (h.ver = none ∨ tonumber h.ver ≠ none) then
      match tonumber (some a.iHeartBeat) with
      | none => s.setTask (a.iTaskPrefix ++ taskName) (h.takenBy a.iMyTmId 0)
      | some q =>
        (s.setTask (a.iTaskPrefix ++ taskName) (h.takenBy a.iMyTmId 0)).listSet a.lMyTmTaskKey taskName (.num q)
    else s

theorem exec_preemptOne (a : PreemptTmTask) (s : Store) (taskName : String) :
    (∃ row, exec (preemptOne a taskName) s = (.ok row, preemptOneStore a s taskName)) ∨
      exec (preemptOne a taskName) s = (.error .badArgument, preemptOneStore a s taskName) ∨
      ((∃ h, s.task (a.iTaskPrefix ++ taskName) = some h ∧ tonumber h.ver = none) ∧
        exec (preemptOne a taskName) s = (.error .arithmetic, preemptOneStore a s taskName)) := by
  unfold preemptOne preemptOneStore
  simp only [exec_bind, exec_existsKey, exec_hget, exec_ite]
  cases hs : s.task (a.iTaskPrefix ++ taskName) with
  | none => left; simp
  | some h =>
    simp only [Option.isSome_some, if_true, Option.bind_some]
    by_cases hg : h.tm = some (.str a.iOldTmId) ∧ tonumber h.opt = some 1
    · cases hv : h.ver with
      | none =>
        cases hq : tonumber (some a.iHeartBeat) with
        | none => right; left; simp [hg, exec_bind, hs, hv, TaskHash.takenBy]
        | some q => left; simp [hg, exec_bind, exec_map, hs, hv, TaskHash.takenBy]
      | some v =>
        cases hn : tonumber (some v) with
        | none => right; right; simp [hg, exec_bind, hv, hn]
        | some n =>
          cases hq : tonumber (some a.iHeartBeat) with
          | none => right; left; simp [hg, exec_bind, hs, hv, hn, TaskHash.takenBy]
          | some q => left; simp [hg, exec_bind, exec_map, hs, hv, hn, TaskHash.takenBy]
    · left
      refine ⟨none, ?_⟩
      rw [if_neg hg, if_neg (fun hc => hg ⟨hc.1, hc.2.1⟩), exec_pure]

/-- The loop of `load_all_task` runs its rounds in order, up to a failing one. -/
theorem exec_loadAllLoop (a : LoadAllTask) (ns : List String) (s : Store) :
    ∃ done : List String, done.Sublist ns ∧ (exec (loadAllLoop a ns) s).2 = done.foldl (loadOneStore a) s := by
  induction ns generalizing s with
  | nil => exact ⟨[], List.Sublist.refl _, rfl⟩
  | cons n ns ih =>
    unfold loadAllLoop
    rcases exec_loadOne a s n with ⟨row, h⟩ | ⟨-, h⟩
    · obtain ⟨done, hsub, hd⟩ := ih (loadOneStore a s n)
      refine ⟨n :: done, hsub.cons_cons n, ?_⟩
      rw [exec_bind_ok h, exec_bind, List.foldl_cons, ← hd]
      obtain ⟨r, t⟩ := exec (loadAllLoop a ns) (loadOneStore a s n)
      cases r <;> rfl
    · exact ⟨[n], List.singleton_sublist.mpr (by simp), by rw [exec_bind_error h]; rfl⟩

/-- So does the loop of `preempt_tm_task`, except that it skips the names left
over once it has its share. -/
theorem exec_preemptLoop (a : PreemptTmTask) (target : ℚ) (ns : List String) (count : ℕ) (s : Store) :
    ∃ done : List String, done.Sublist ns ∧
      (exec (preemptLoop a target ns count) s).2 = done.foldl (preemptOneStore a) s := by
  induction ns generalizing s count with
  | nil => exact ⟨[], List.Sublist.refl _, rfl⟩
  | cons n ns ih =>
    unfold preemptLoop
    by_cases hc : (count : ℚ) < target
    · rw [if_pos hc]
      rcases exec_preemptOne a s n with ⟨row, h⟩ | h | ⟨-, h⟩
      · rw [exec_bind_ok h]
        cases row with
        | none =>
          obtain ⟨done, hsub, hd⟩ := ih count (preemptOneStore a s n)
          exact ⟨n :: done, hsub.cons_cons n, hd⟩
        | some row =>
          obtain ⟨done, hsub, hd⟩ := ih (count + 1) (preemptOneStore a s n)
          refine ⟨n :: done, hsub.cons_cons n, ?_⟩
          rw [List.foldl_cons, ← hd, exec_bind]
          obtain ⟨r, t⟩ := exec (preemptLoop a target ns (count + 1)) (preemptOneStore a s n)
          cases r <;> rfl
      · exact ⟨[n], List.singleton_sublist.mpr (by simp), by rw [exec_bind_error h]; rfl⟩
      · exact ⟨[n], List.singleton_sublist.mpr (by simp), by rw [exec_bind_error h]; rfl⟩
    · rw [if_neg hc]
      obtain ⟨done, hsub, hd⟩ := ih count s
      exact ⟨done, hsub.cons n, hd⟩

/-- What a round of `load_all_task` for manager `T` does to a task's hash and
to its entry in the manager's list. -/
def loadEffect (T : String) : Option TaskHash × Option Val → Option TaskHash × Option Val
  | (none, _) => (none, none)
  | (some h, beat) =>
    if h.tm = none then (some h, beat)
    else if h.tm = some (.str T) then (some h.bump, if tonumber h.opt = some 0 then none else beat)
    else (some h, none)

/-- The same for `preempt_tm_task`, with the entry in the list of the new owner. -/
def preemptEffect (a : PreemptTmTask) : Option TaskHash × Option Val → Option TaskHash × Option Val
  | (none, beat) => (none, beat)
  | (some h, beat) =>
    if h.tm = some (.str a.iOldTmId) ∧ tonumber h.opt = some 1 ∧ (h.ver = none ∨ tonumber h.ver ≠ none) then
      (some (h.takenBy a.iMyTmId 0), (tonumber (some a.iHeartBeat)).elim beat fun q => some (.num q))
    else (some h, beat)

def Store.row (s : Store) (taskPrefix listKey name : String) : Option TaskHash × Option Val :=
  (s.task (taskPrefix ++ name), (s.tmTasks listKey).lookup name)

theorem loadOneStore_row (a : LoadAllTask) (s : Store) (n : String) :
    (loadOneStore a s n).row a.iTaskPrefix a.lMyTmTaskKey n =
      loadEffect a.iTmId (s.row a.iTaskPrefix a.lMyTmTaskKey n) := by
  unfold loadOneStore Store.row
  cases hs : s.task (a.iTaskPrefix ++ n) with
  | none => simp [loadEffect, hs, Store.listDel]
  | some h =>
    simp only [loadEffect]
    split_ifs <;> simp [hs, Store.listDel, Store.setTask]

theorem loadOneStore_row_ne (a : LoadAllTask) (s : Store) {n m : String} (hm : m ≠ n) :
    (loadOneStore a s n).row a.iTaskPrefix a.lMyTmTaskKey m = s.row a.iTaskPrefix a.lMyTmTaskKey m := by
  unfold loadOneStore Store.row
  cases hs : s.task (a.iTaskPrefix ++ n) with
  | none => simp [Store.listDel, hm]
  | some h =>
    dsimp only
    split_ifs <;> simp [Store.listDel, Store.setTask, hm]

theorem preemptOneStore_row (a : PreemptTmTask) (s : Store) (n : String) :
    (preemptOneStore a s n).row a.iTaskPrefix a.lMyTmTaskKey n =
      preemptEffect a (s.row a.iTaskPrefix a.lMyTmTaskKey n) := by
  unfold preemptOneStore Store.row
  cases hs : s.task (a.iTaskPrefix ++ n) with
  | none => simp [preemptEffect, hs]
  | some h =>
    simp only [preemptEffect]
    split_ifs
    · cases tonumber (some a.iHeartBeat) <;> simp [Store.listSet, Store.setTask]
    · simp [hs]

theorem preemptOneStore_row_ne (a : PreemptTmTask) (s : Store) {n m : String} (hm : m ≠ n) :
    (preemptOneStore a s n).row a.iTaskPrefix a.lMyTmTaskKey m =
      s.row a.iTaskPrefix a.lMyTmTaskKey m := by
  unfold preemptOneStore Store.row
  cases hs : s.task (a.iTaskPrefix ++ n) with
  | none => rfl
  | some h =>
    dsimp only
    split_ifs
    · cases tonumber (some a.iHeartBeat) <;> simp [Store.listSet, Store.setTask, hm]
    · rfl

/-- What a round for the task at `key` and its entry in the list at `listKey` leaves alone. -/
structure RoundFrame (key listKey : String) (s s' : Store) : Prop where
  tasks : ∀ k, k ≠ key → s'.task k = s.task k
  lists : ∀ k, k ≠ listKey → s'.tmTasks k = s.tmTasks k
  names : s'.names = s.names
  ttl : s'.ttl = s.ttl

theorem preemptOneStore_frame (a : PreemptTmTask) (s : Store) (n : String) :
    RoundFrame (a.iTaskPrefix ++ n) a.lMyTmTaskKey s (preemptOneStore a s n) := by
  unfold preemptOneStore
  cases s.task (a.iTaskPrefix ++ n) with
  | none => exact ⟨fun _ _ => rfl, fun _ _ => rfl, rfl, rfl⟩
  | some h =>
    dsimp only
    split_ifs
    · cases tonumber (some a.iHeartBeat) with
      | none => exact ⟨fun k hk => by simp [hk], fun _ _ => rfl, rfl, rfl⟩
      | some q => exact ⟨fun k hk => by simp [hk], fun k hk => by simp [Store.listSet, hk], rfl, rfl⟩
    · exact ⟨fun _ _ => rfl, fun _ _ => rfl, rfl, rfl⟩

/-- `s'` comes from `s` by applying `F` to some of the rows of one task list. -/
structure RowWise (taskPrefix listKey : String)
    (F : Option TaskHash × Option Val → Option TaskHash × Option Val) (s s' : Store) : Prop where
  rows : ∀ n, s'.row taskPrefix listKey n = s.row taskPrefix listKey n ∨
    s'.row taskPrefix listKey n = F (s.row taskPrefix listKey n)
  tasks : ∀ k, (∀ n, k ≠ taskPrefix ++ n) → s'.task k = s.task k
  lists : ∀ k, k ≠ listKey → s'.tmTasks k = s.tmTasks k
  names : s'.names = s.names

/-- A loop over the names of a task list, or over some of them, is row-wise if its rounds are. -/
theorem RowWise.foldl {P L : String} {F : Option TaskHash × Option Val → Option TaskHash × Option Val}
    {step : Store → String → Store} (hself : ∀ s n, (step s n).row P L n = F (s.row P L n))
    (hrow : ∀ s n m, m ≠ n → (step s n).row P L m = s.row P L m)
    (htask : ∀ s n k, k ≠ P ++ n → (step s n).task k = s.task k)
    (hlist : ∀ s n k, k ≠ L → (step s n).tmTasks k = s.tmTasks k)
    (hnames : ∀ s n, (step s n).names = s.names) {l : List String} (hl : l.Nodup) (s : Store) :
    RowWise P L F s (l.foldl step s) where
  rows n := by
    rw [foldl_pointwise (r := fun s n => s.row P L n) hself hrow hl s n]
    split_ifs
    · exact Or.inr rfl
    · exact Or.inl rfl
  tasks k hk := foldl_frame (r := fun s => s.task k) (fun s n => htask s n k (hk n)) l s
  lists k hk := foldl_frame (r := fun s => s.tmTasks k) (fun s n => hlist s n k hk) l s
  names := foldl_frame (r := fun s => s.names) hnames l s

theorem scan_nodup (order : ScanOrder) (l : TmList) : (order.run l.keys).Nodup :=
  (order.perm l.keys).nodup_iff.mpr l.nodupKeys

theorem loadAllTask_rowWise (order : ScanOrder) (a : LoadAllTask) (s : Store) :
    RowWise a.iTaskPrefix a.lMyTmTaskKey (loadEffect a.iTmId) s (exec (loadAllTask order a) s).2 := by
  obtain ⟨done, hsub, hd⟩ := exec_loadAllLoop a (order.run (s.tmTasks a.lMyTmTaskKey).keys) s
  have hrun : (exec (loadAllTask order a) s).2 = done.foldl (loadOneStore a) s := hd
  rw [hrun]
  refine RowWise.foldl (loadOneStore_row a) (fun s n m => loadOneStore_row_ne a s) ?_ ?_ ?_
    ((scan_nodup order _).sublist hsub) s
  · intro s n k hk
    unfold loadOneStore
    cases s.task (a.iTaskPrefix ++ n) with
    | none => rfl
    | some h => dsimp only; split_ifs <;> simp [hk]
  · intro s n k hk
    unfold loadOneStore
    cases s.task (a.iTaskPrefix ++ n) with
    | none => simp [Store.listDel, hk]
    | some h => dsimp only; split_ifs <;> simp [Store.listDel, hk]
  · intro s n
    unfold loadOneStore
    cases s.task (a.iTaskPrefix ++ n) with
    | none => rfl
    | some h => dsimp only; split_ifs <;> simp

theorem preemptTmTask_rowWise (order : ScanOrder) (a : PreemptTmTask) (s : Store) :
    RowWise a.iTaskPrefix a.lMyTmTaskKey (preemptEffect a) s (exec (preemptTmTask order a) s).2 := by
  have hrun : ∃ done : List String, done.Sublist (order.run (s.tmTasks a.lOldTmTaskKey).keys) ∧
      (exec (preemptTmTask order a) s).2 = done.foldl (preemptOneStore a) s := by
    unfold preemptTmTask hgetallNames
    simp only [exec_bind, exec_gets]
    cases tonumber (some a.iDenominator) with
    | none => exact ⟨[], List.nil_sublist _, rfl⟩
    | some d =>
      obtain ⟨done, hsub, hd⟩ := exec_preemptLoop a
        (preemptTarget (order.run (s.tmTasks a.lOldTmTaskKey).keys).length d)
        (order.run (s.tmTasks a.lOldTmTaskKey).keys) 0 s
      refine ⟨done, hsub, ?_⟩
      rw [← hd, exec_bind]
      generalize exec (preemptLoop a _ _ 0) s = r
      obtain ⟨o, t⟩ := r
      cases o <;> rfl
  obtain ⟨done, hsub, hd⟩ := hrun
  rw [hd]
  refine RowWise.foldl (preemptOneStore_row a) (fun s n m => preemptOneStore_row_ne a s) ?_ ?_ ?_
    ((scan_nodup order _).sublist hsub) s
  · exact fun s n k hk => (preemptOneStore_frame a s n).tasks k hk
  · exact fun s n k hk => (preemptOneStore_frame a s n).lists k hk
  · exact fun s n => (preemptOneStore_frame a s n).names

end CppBase.TaskStore
