import Mathlib.Algebra.Order.Floor.Semiring
import Mathlib.Data.Rat.Floor
import CppBase.Sanity.LoopEffects

/-! The share that one call of `preempt_tm_task` takes: the first tasks of the
list, in the order of the reply, that are still run by the old manager. -/

namespace CppBase.TaskStore

open CppBase.Lib

variable {a : PreemptTmTask} {s : Store} {n : String} {beat : ℚ}

def eligible (a : PreemptTmTask) (s : Store) (n : String) : Bool :=
  (s.task (a.iTaskPrefix ++ n)).any fun h => h.tm = some (.str a.iOldTmId) && tonumber h.opt = some 1

/-- The script can count on from the version of the task. -/
def VerOk (a : PreemptTmTask) (s : Store) (n : String) : Prop :=
  eligible a s n = true → ∀ h, s.task (a.iTaskPrefix ++ n) = some h → h.ver = none ∨ tonumber h.ver ≠ none

theorem eligible_iff : eligible a s n = true ↔
    ∃ h, s.task (a.iTaskPrefix ++ n) = some h ∧ h.tm = some (.str a.iOldTmId) ∧ tonumber h.opt = some 1 := by
  unfold eligible
  cases s.task (a.iTaskPrefix ++ n) <;> simp

section Round

theorem preemptOneStore_eligible (hbeat : tonumber (some a.iHeartBeat) = some beat) {h : TaskHash}
    (hs : s.task (a.iTaskPrefix ++ n) = some h) (htm : h.tm = some (.str a.iOldTmId))
    (hopt : tonumber h.opt = some 1) (hver : h.ver = none ∨ tonumber h.ver ≠ none) :
    preemptOneStore a s n =
      (s.setTask (a.iTaskPrefix ++ n) (h.takenBy a.iMyTmId 0)).listSet a.lMyTmTaskKey n (.num beat) := by
  simp only [preemptOneStore, hs, htm, hopt, true_and, if_pos hver, hbeat]

/-- A round for a task of the old manager takes it. -/
theorem exec_preemptOne_eligible (hbeat : tonumber (some a.iHeartBeat) = some beat) (hel : eligible a s n = true)
    (hver : VerOk a s n) :
    ∃ row, exec (preemptOne a n) s = (.ok (some (n, row)), preemptOneStore a s n) := by
  obtain ⟨h, hs, htm, hopt⟩ := eligible_iff.mp hel
  have hok := hver hel h hs
  rw [preemptOneStore_eligible hbeat hs htm hopt hok]
  unfold preemptOne
  simp only [exec_bind, exec_existsKey, exec_hget, hs, Option.isSome_some, if_true, Option.bind_some, htm,
    hopt, and_self]
  cases hv : h.ver with
  | none => simp [exec_bind, exec_map, hs, hv, hbeat, TaskHash.takenBy]
  | some v =>
    obtain ⟨m, hm⟩ := Option.ne_none_iff_exists'.mp ((hok.resolve_left (by simp [hv])))
    rw [hv] at hm
    simp [exec_bind, exec_map, hs, hv, hm, hbeat, TaskHash.takenBy]

theorem exec_preemptOne_ineligible (hel : eligible a s n = false) : exec (preemptOne a n) s = (.ok none, s) := by
  unfold preemptOne
  simp only [exec_bind, exec_existsKey, exec_hget, exec_ite]
  cases hs : s.task (a.iTaskPrefix ++ n) with
  | none => simp
  | some h =>
    have hnot : ¬ (h.tm = some (.str a.iOldTmId) ∧ tonumber h.opt = some 1) := by
      rintro ⟨htm, hopt⟩
      have := eligible_iff.mpr ⟨h, hs, htm, hopt⟩
      rw [hel] at this
      cases this
    simp [hnot]

theorem task_preemptOneStore_of_ne {m : String} (hne : m ≠ n) :
    (preemptOneStore a s n).task (a.iTaskPrefix ++ m) = s.task (a.iTaskPrefix ++ m) :=
  congrArg Prod.fst (preemptOneStore_row_ne a s hne)

theorem eligible_preemptOneStore_of_ne {m : String} (hne : m ≠ n) :
    eligible a (preemptOneStore a s n) m = eligible a s m := by
  rw [eligible, task_preemptOneStore_of_ne hne, eligible]

end Round

section Loop

/-- The names the loop takes with `count` tasks taken before. -/
def share (a : PreemptTmTask) (s : Store) (target : ℚ) (ns : List String) (count : ℕ) : List String :=
  (ns.filter (eligible a s)).take (⌈target⌉₊ - count)

/-- The loop takes the first eligible tasks until it has its share. -/
theorem exec_preemptLoop_share (hbeat : tonumber (some a.iHeartBeat) = some beat) (target : ℚ) {ns : List String}
    (hnodup : ns.Nodup) (hver : ∀ n ∈ ns, VerOk a s n) (count : ℕ) :
    ∃ collect, exec (preemptLoop a target ns count) s =
        (.ok (count + (share a s target ns count).length, collect),
          (share a s target ns count).foldl (preemptOneStore a) s) ∧
      collect.map Prod.fst = share a s target ns count := by
  induction ns generalizing s count with
  | nil => exact ⟨[], by simp [preemptLoop, share], by simp [share]⟩
  | cons n ns ih =>
    obtain ⟨hn, hns⟩ := List.nodup_cons.mp hnodup
    have hrest : ∀ m ∈ ns, VerOk a s m := fun m hm => hver m (List.mem_cons_of_mem n hm)
    have hskip : (⌈target⌉₊ ≤ count ∨ eligible a s n = false) →
        share a s target (n :: ns) count = share a s target ns count := by
      rintro (hfull | hel)
      · simp [share, Nat.sub_eq_zero_of_le hfull]
      · rw [share, List.filter_cons_of_neg (by simp [hel]), share]
    unfold preemptLoop
    by_cases hc : (count : ℚ) < target
    · rw [if_pos hc]
      cases hel : eligible a s n with
      | false =>
        rw [exec_bind_ok (exec_preemptOne_ineligible hel), hskip (.inr hel)]
        exact ih hns hrest count
      | true =>
        obtain ⟨row, hrow⟩ := exec_preemptOne_eligible hbeat hel (hver n List.mem_cons_self)
        -- the names that are left are other tasks, so the round does not change which of them are eligible
        have hother : ∀ m ∈ ns, m ≠ n := fun m hm heq => hn (heq ▸ hm)
        have hver' : ∀ m ∈ ns, VerOk a (preemptOneStore a s n) m := by
          intro m hm hel' h hs
          rw [eligible_preemptOneStore_of_ne (hother m hm)] at hel'
          rw [task_preemptOneStore_of_ne (hother m hm)] at hs
          exact hrest m hm hel' h hs
        have hshare : share a s target (n :: ns) count =
            n :: share a (preemptOneStore a s n) target ns (count + 1) := by
          have hfilter : ns.filter (eligible a (preemptOneStore a s n)) = ns.filter (eligible a s) :=
            List.filter_congr fun m hm => eligible_preemptOneStore_of_ne (hother m hm)
          have hleft : ⌈target⌉₊ - count = (⌈target⌉₊ - (count + 1)) + 1 := by
            have := Nat.lt_ceil.mpr hc
            omega
          rw [share, List.filter_cons_of_pos (by simp [hel]), hleft, List.take_succ_cons, share, hfilter]
        obtain ⟨collect, hexec, hcollect⟩ := ih hns hver' (count + 1)
        refine ⟨(n, row) :: collect, ?_, by rw [List.map_cons, hcollect, hshare]⟩
        rw [exec_bind_ok hrow]
        simp only [exec_bind_ok hexec, exec_pure, hshare, List.length_cons, List.foldl_cons]
        congr 3
        omega
    · rw [if_neg hc, hskip (.inl (Nat.ceil_le.mpr (not_lt.mp hc)))]
      exact ih hns hrest count

end Loop

end CppBase.TaskStore
