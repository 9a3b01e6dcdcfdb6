import CppBase.Sanity.PreemptShare
import CppBase.Sanity.Sample

/-! Taking over the tasks of a dead manager: what one call of `preempt_tm_task`
moves, and that as many calls as the denominator says leave nothing behind. -/

namespace CppBase.TaskStore

open CppBase.Lib

section Statement

/-- The tasks in the list of the old manager. -/
def listed (a : PreemptTmTask) (s : Store) : List String := (s.tmTasks a.lOldTmTaskKey).keys

/-- Those that it still runs. -/
def pending (a : PreemptTmTask) (s : Store) : List String := (listed a s).filter (eligible a s)

def denominator (q : ℚ) : ℚ := if 0 < q then q else 10

/-- `t` is `s` with the tasks of `moved` handed to the new manager. -/
structure HandedOver (a : PreemptTmTask) (beat : ℚ) (s t : Store) (moved : List String) : Prop where
  nodup : moved.Nodup
  pending : moved ⊆ pending a s
  tasks : ∀ n ∈ moved, ∃ h, s.task (a.iTaskPrefix ++ n) = some h ∧
    t.task (a.iTaskPrefix ++ n) = some (h.takenBy a.iMyTmId 0)
  entries : ∀ n ∈ moved, (t.tmTasks a.lMyTmTaskKey).lookup n = some (.num beat)
  otherTasks : ∀ k, (∀ n ∈ moved, k ≠ a.iTaskPrefix ++ n) → t.task k = s.task k
  otherEntries : ∀ n, n ∉ moved → (t.tmTasks a.lMyTmTaskKey).lookup n = (s.tmTasks a.lMyTmTaskKey).lookup n
  otherLists : ∀ k, k ≠ a.lMyTmTaskKey → t.tmTasks k = s.tmTasks k
  names : t.names = s.names
  ttl : t.ttl = s.ttl

structure TakeoverCall where
  order : ScanOrder
  iMyTmId : String
  iHeartBeat : Val

def TakeoverCall.args (c : TakeoverCall) (a : PreemptTmTask) : PreemptTmTask :=
  { a with iMyTmId := c.iMyTmId, iHeartBeat := c.iHeartBeat }

def takeOver (a : PreemptTmTask) : List TakeoverCall → Script (List String)
  | [] => pure []
  | c :: calls => do
    let reply ← preemptTmTask c.order (c.args a)
    let rest ← takeOver a calls
    return reply.collect.map Prod.fst ++ rest

end Statement

section Share

variable {a : PreemptTmTask} {s t : Store} {q beat : ℚ} {moved : List String}

theorem denominator_pos (q : ℚ) : 0 < denominator q := by
  unfold denominator
  split_ifs with h
  · exact h
  · norm_num

/-- The loop stops at the next integer. -/
theorem ceil_preemptTarget (N : ℕ) (q : ℚ) : ⌈preemptTarget N q⌉₊ = ⌈(N : ℚ) / denominator q⌉₊ := by
  have hd : (if q < 0 ∨ q = 0 then 10 else q) = denominator q := by
    unfold denominator
    by_cases h : 0 < q
    · rw [if_pos h, if_neg (by simpa [← le_iff_lt_or_eq] using h)]
    · rw [if_neg h, if_pos (le_iff_lt_or_eq.mp (not_lt.mp h))]
  unfold preemptTarget
  simp only [hd]
  split_ifs with hzero
  · have hN : (N : ℚ) = 0 := (div_eq_zero_iff.mp hzero).resolve_right (denominator_pos q).ne'
    rw [hN, zero_div]
  · rfl

theorem foldl_handedOver (hbeat : tonumber (some a.iHeartBeat) = some beat)
    (hver : ∀ n ∈ listed a s, VerOk a s n) (hnodup : moved.Nodup) (hpending : moved ⊆ pending a s) :
    HandedOver a beat s (moved.foldl (preemptOneStore a) s) moved := by
  have hrows := foldl_pointwise (r := fun s n => s.row a.iTaskPrefix a.lMyTmTaskKey n) (preemptOneStore_row a)
    (fun s n m => preemptOneStore_row_ne a s) hnodup s
  have hin : ∀ n ∈ moved, ∃ h, s.task (a.iTaskPrefix ++ n) = some h ∧
      (moved.foldl (preemptOneStore a) s).row a.iTaskPrefix a.lMyTmTaskKey n =
        (some (h.takenBy a.iMyTmId 0), some (.num beat)) := by
    intro n hn
    obtain ⟨hlisted, hel⟩ := List.mem_filter.mp (hpending hn)
    obtain ⟨h, hs, htm, hopt⟩ := eligible_iff.mp hel
    have hok := hver n hlisted hel h hs
    refine ⟨h, hs, ?_⟩
    rw [hrows n, if_pos hn, Store.row, hs, preemptEffect, if_pos ⟨htm, hopt, hok⟩, hbeat]
    rfl
  refine ⟨hnodup, hpending, fun n hn => ?_, fun n hn => ?_, fun k hk => ?_, fun n hn => ?_, fun k hk => ?_, ?_, ?_⟩
  · obtain ⟨h, hs, hrow⟩ := hin n hn
    exact ⟨h, hs, congrArg Prod.fst hrow⟩
  · obtain ⟨h, -, hrow⟩ := hin n hn
    exact congrArg Prod.snd hrow
  · exact foldl_frame_of_mem (r := fun s => s.task k)
      (fun s n hn => (preemptOneStore_frame a s n).tasks k (hk n hn)) s
  · exact congrArg Prod.snd ((hrows n).trans (if_neg hn))
  · exact foldl_frame (r := fun s => s.tmTasks k) (fun s n => (preemptOneStore_frame a s n).lists k hk) moved s
  · exact foldl_frame (r := fun s => s.names) (fun s n => (preemptOneStore_frame a s n).names) moved s
  · exact foldl_frame (r := fun s => s.ttl) (fun s n => (preemptOneStore_frame a s n).ttl) moved s

theorem exec_preemptTmTask_share (hd : tonumber (some a.iDenominator) = some q)
    (hbeat : tonumber (some a.iHeartBeat) = some beat) (hver : ∀ n ∈ listed a s, VerOk a s n) (order : ScanOrder) :
    ∃ moved reply t, exec (preemptTmTask order a) s = (.ok reply, t) ∧ HandedOver a beat s t moved ∧
      moved.length = min (pending a s).length ⌈((listed a s).length : ℚ) / denominator q⌉₊ ∧
      reply.count = moved.length ∧ reply.collect.map Prod.fst = moved := by
  let ns := order.run (listed a s)
  let target := preemptTarget ns.length q
  have hperm : ns.Perm (listed a s) := order.perm _
  have hver' : ∀ n ∈ ns, VerOk a s n := fun n hn => hver n (hperm.subset hn)
  obtain ⟨collect, hexec, hcollect⟩ :=
    exec_preemptLoop_share (a := a) hbeat target (scan_nodup order _) hver' 0
  have hfilter := hperm.filter (eligible a s)
  have hsub : (share a s target ns 0).Sublist (ns.filter (eligible a s)) := List.take_sublist _ _
  refine ⟨share a s target ns 0, ⟨0 + (share a s target ns 0).length, ns.length, target, collect⟩, _, ?_,
    foldl_handedOver hbeat hver ((scan_nodup order _).sublist (hsub.trans List.filter_sublist)) ?_, ?_,
    Nat.zero_add _, hcollect⟩
  · have hscan : exec (hgetallNames order a.lOldTmTaskKey) s = (.ok ns, s) := rfl
    unfold preemptTmTask
    rw [exec_bind_ok hscan]
    simp only [hd]
    exact exec_bind_ok hexec _
  · exact fun n hn => hfilter.subset (hsub.subset hn)
  · rw [share, List.length_take, hfilter.length_eq, Nat.sub_zero, ceil_preemptTarget, hperm.length_eq, min_comm]
    rfl

end Share

section Drain

variable {a : PreemptTmTask} {s t : Store} {q beat : ℚ} {moved : List String} {n : String}

/-- The list of the old manager is not the one that tasks are moved to. -/
theorem HandedOver.listed (h : HandedOver a beat s t moved) (hne : a.iMyTmId ≠ a.iOldTmId) :
    listed a t = listed a s := by
  rw [TaskStore.listed, h.otherLists, TaskStore.listed]
  intro heq
  exact hne ((String.append_right_inj _).mp heq).symm

theorem HandedOver.task (h : HandedOver a beat s t moved) (hn : n ∉ moved) :
    t.task (a.iTaskPrefix ++ n) = s.task (a.iTaskPrefix ++ n) := by
  apply h.otherTasks
  rintro m hm heq
  exact hn ((String.append_right_inj _).mp heq ▸ hm)

/-- A task that has been moved is not the old manager's any more. -/
theorem HandedOver.eligible (h : HandedOver a beat s t moved) (hne : a.iMyTmId ≠ a.iOldTmId) (n : String) :
    eligible a t n = (eligible a s n && decide (n ∉ moved)) := by
  by_cases hn : n ∈ moved
  · obtain ⟨hash, -, ht⟩ := h.tasks n hn
    simp [TaskStore.eligible, ht, TaskHash.takenBy, hne, hn]
  · simp [TaskStore.eligible, h.task hn, hn]

theorem HandedOver.pending_eq (h : HandedOver a beat s t moved) (hne : a.iMyTmId ≠ a.iOldTmId) :
    TaskStore.pending a t = (TaskStore.pending a s).filter (· ∉ moved) := by
  rw [TaskStore.pending, h.listed hne, TaskStore.pending, List.filter_filter]
  exact List.filter_congr fun n _ => (h.eligible hne n).trans (Bool.and_comm _ _)

theorem HandedOver.length_pending (h : HandedOver a beat s t moved) (hne : a.iMyTmId ≠ a.iOldTmId) :
    (TaskStore.pending a t).length + moved.length = (TaskStore.pending a s).length := by
  have hperm : ((TaskStore.pending a s).filter (· ∈ moved)).Perm moved := by
    have hnodup : (TaskStore.pending a s).Nodup := List.Nodup.filter _ (s.tmTasks a.lOldTmTaskKey).nodupKeys
    refine (List.perm_ext_iff_of_nodup (hnodup.filter _) h.nodup).mpr fun n => ?_
    simpa using fun hn => h.pending hn
  rw [h.pending_eq hne, ← hperm.length_eq, Nat.add_comm]
  exact (List.length_eq_length_filter_add (l := TaskStore.pending a s) (fun n => decide (n ∈ moved))).symm ▸ by simp

theorem HandedOver.verOk (h : HandedOver a beat s t moved) (hne : a.iMyTmId ≠ a.iOldTmId)
    (hver : ∀ n ∈ TaskStore.listed a s, VerOk a s n) : ∀ n ∈ TaskStore.listed a t, VerOk a t n := by
  intro n hn hel hash ht
  rw [h.listed hne] at hn
  rw [h.eligible hne, Bool.and_eq_true, decide_eq_true_eq] at hel
  rw [h.task hel.2] at ht
  exact hver n hn hel.1 hash ht

/-- Each call takes its share of what the calls before it have left. -/
theorem exec_takeOver (hd : tonumber (some a.iDenominator) = some q) (hver : ∀ n ∈ listed a s, VerOk a s n)
    {calls : List TakeoverCall}
    (hcalls : ∀ c ∈ calls, c.iMyTmId ≠ a.iOldTmId ∧ tonumber (some c.iHeartBeat) ≠ none) :
    ∃ names t, exec (takeOver a calls) s = (.ok names, t) ∧ names.Nodup ∧ names ⊆ pending a s ∧
      (pending a t).length =
        (pending a s).length - calls.length * ⌈((listed a s).length : ℚ) / denominator q⌉₊ := by
  induction calls generalizing s with
  | nil => exact ⟨[], s, rfl, List.nodup_nil, List.nil_subset _, by simp⟩
  | cons c calls ih =>
    have hne : (c.args a).iMyTmId ≠ (c.args a).iOldTmId := (hcalls c List.mem_cons_self).1
    obtain ⟨beat, hbeat⟩ := Option.ne_none_iff_exists'.mp (hcalls c List.mem_cons_self).2
    obtain ⟨moved, reply, u, hexec, hover, hlen, -, hcollect⟩ :=
      exec_preemptTmTask_share (a := c.args a) hd hbeat hver c.order
    obtain ⟨names, t, hrest, hnodup, hsub, hleft⟩ :=
      ih (hover.verOk hne hver) fun d hd => hcalls d (List.mem_cons_of_mem c hd)
    have hpending : pending a u = (pending a s).filter (· ∉ moved) := hover.pending_eq hne
    have hcount : (pending a u).length + moved.length = (pending a s).length := hover.length_pending hne
    have hsame : listed a u = listed a s := hover.listed hne
    refine ⟨moved ++ names, t, ?_, ?_, ?_, ?_⟩
    · unfold takeOver
      rw [exec_bind_ok hexec, exec_bind_ok hrest, hcollect]
      rfl
    · -- what later calls take is still pending, and so not among the first
      refine List.nodup_append.mpr ⟨hover.nodup, hnodup, ?_⟩
      rintro n hn m hm rfl
      have hmem := hsub hm
      rw [hpending] at hmem
      simp [hn] at hmem
    · refine List.append_subset.mpr ⟨hover.pending, fun n hn => ?_⟩
      have hmem := hsub hn
      rw [hpending] at hmem
      exact List.mem_of_mem_filter hmem
    · rw [hleft, hsame, List.length_cons, Nat.succ_mul]
      have hlen' : moved.length = min (pending a s).length ⌈((listed a s).length : ℚ) / denominator q⌉₊ := hlen
      omega

end Drain

/-- For a number as heartbeat and as denominator, and versions that are numbers
where they are there at all: one call moves exactly its share, and from as many
calls as the denominator on nothing is left, by whichever managers they are made. -/
theorem preempt_drains (a : PreemptTmTask) (s : Store) (q beat : ℚ)
    (hd : tonumber (some a.iDenominator) = some q) (hbeat : tonumber (some a.iHeartBeat) = some beat)
    (hver : ∀ n ∈ listed a s, VerOk a s n) :
    (∀ order, ∃ moved reply t, exec (preemptTmTask order a) s = (.ok reply, t) ∧ HandedOver a beat s t moved ∧
      moved.length = min (pending a s).length ⌈((listed a s).length : ℚ) / denominator q⌉₊ ∧
      reply.count = moved.length ∧ reply.collect.map Prod.fst = moved) ∧
    ∀ calls : List TakeoverCall,
      (∀ c ∈ calls, c.iMyTmId ≠ a.iOldTmId ∧ tonumber (some c.iHeartBeat) ≠ none) → denominator q ≤ calls.length →
      ∃ names t, exec (takeOver a calls) s = (.ok names, t) ∧ names.Nodup ∧ pending a t = [] := by
  refine ⟨exec_preemptTmTask_share hd hbeat hver, fun calls hcalls henough => ?_⟩
  obtain ⟨names, t, hexec, hnodup, -, hleft⟩ := exec_takeOver hd hver hcalls
  refine ⟨names, t, hexec, hnodup, List.eq_nil_of_length_eq_zero ?_⟩
  have hpos := denominator_pos q
  have hall : (listed a s).length ≤ calls.length * ⌈((listed a s).length : ℚ) / denominator q⌉₊ := by
    have hceil := Nat.le_ceil (((listed a s).length : ℚ) / denominator q)
    have hle : ((listed a s).length : ℚ) ≤ calls.length * ⌈((listed a s).length : ℚ) / denominator q⌉₊ := by
      calc ((listed a s).length : ℚ) = denominator q * ((listed a s).length / denominator q) := by field_simp
        _ ≤ calls.length * ⌈((listed a s).length : ℚ) / denominator q⌉₊ :=
          mul_le_mul henough hceil (by positivity) (by positivity)
    exact_mod_cast hle
  have hsub : (pending a s).length ≤ (listed a s).length := List.length_filter_le _ _
  omega

namespace Sample

def preempt (q : ℚ) : PreemptTmTask :=
  { iMyTmId := "new", iOldTmId := "old", iTmTaskKeyPrefix := "tm:", iTaskPrefix := "task:", iHeartBeat := .num 100,
    iDenominator := .num q }

def runBefore (tasks : List (String × Option Val)) : Store :=
  { Store.empty with
    task := fun key => (tasks.find? fun x => "task:" ++ x.1 = key).map fun x =>
      { tm := some (.str "old"), opt := some (.num 1), ver := x.2 }
    tmTasks := Function.update Store.empty.tmTasks "tm:old" (tasks.map fun x => ⟨x.1, .num 90⟩).toAList }

theorem verOk_runBefore {tasks : List (String × Option Val)} (h : ∀ x ∈ tasks, tonumber x.2 ≠ none)
    (a : PreemptTmTask) (n : String) : VerOk a (runBefore tasks) n := by
  intro _ hash hs
  obtain ⟨x, hx, rfl⟩ := Option.map_eq_some_iff.mp hs
  exact .inr (h x (List.mem_of_find?_eq_some hx))

end Sample

open Sample in
/-- The first call takes two of three tasks, the second the last one. -/
theorem preempt_drains_three :
    let tasks := runBefore [("t", some (.num 3)), ("u", some (.num 1)), ("v", some (.numeral 5 "05"))]
    let calls : List TakeoverCall := [⟨inOrder, "new", .num 100⟩, ⟨inOrder, "newer", .numeral 101 "0101"⟩]
    (∃ moved reply t, exec (preemptTmTask inOrder (preempt 2)) tasks = (.ok reply, t) ∧
      HandedOver (preempt 2) 100 tasks t moved ∧ moved.length = 2) ∧
    ∃ names t, exec (takeOver (preempt 2) calls) tasks = (.ok names, t) ∧ names.Nodup ∧
      pending (preempt 2) t = [] := by
  intro tasks calls
  obtain ⟨hshare, hdrain⟩ := preempt_drains (preempt 2) tasks 2 100 rfl rfl
    fun n _ => verOk_runBefore (by decide) _ n
  refine ⟨?_, hdrain calls (by decide) (by decide)⟩
  obtain ⟨moved, reply, t, hexec, hover, hlength, -, -⟩ := hshare inOrder
  refine ⟨moved, reply, t, hexec, hover, ?_⟩
  have hpending : (pending (preempt 2) tasks).length = 3 := by decide +kernel
  have hlisted : (listed (preempt 2) tasks).length = 3 := by decide +kernel
  rw [hlength, hpending, hlisted]
  norm_num [denominator, Nat.ceil_eq_iff]

open Sample in
/-- A task without a version gets the version 0. One whose version is no number stops the script, and
is not moved although it is the only one. A heartbeat that is no number stops it too, and then the
task has the new manager but is not in its list. -/
theorem preempt_other_versions :
    ((exec (preemptTmTask inOrder (preempt 10)) (runBefore [("t", none)])).2.task "task:t").bind (·.ver) =
        some (.num 0) ∧
      ((exec (preemptTmTask inOrder (preempt 10)) (runBefore [("t", some (.str "v3"))])).1.toOption.isNone ∧
        ((exec (preemptTmTask inOrder (preempt 10)) (runBefore [("t", some (.str "v3"))])).2.task "task:t").bind
          (·.tm) = some (.str "old") ∧
        (pending (preempt 10) (runBefore [("t", some (.str "v3"))])).length = 1 ∧
        ⌈((listed (preempt 10) (runBefore [("t", some (.str "v3"))])).length : ℚ) / denominator 10⌉₊ = 1) ∧
      let a := { preempt 10 with iHeartBeat := .str "now" }
      let t := (exec (preemptTmTask inOrder a) (runBefore [("t", some (.num 3))])).2
      (exec (preemptTmTask inOrder a) (runBefore [("t", some (.num 3))])).1.toOption.isNone ∧
        (t.task "task:t").bind (·.tm) = some (.str "new") ∧ (t.tmTasks "tm:new").lookup "t" = none := by
  refine ⟨by decide +kernel, ⟨by decide +kernel, by decide +kernel, by decide +kernel, ?_⟩, by decide +kernel,
    by decide +kernel, by decide +kernel⟩
  have hone : (listed (preempt 10) (runBefore [("t", some (.str "v3"))])).length = 1 := by decide +kernel
  rw [hone]
  norm_num [denominator, Nat.ceil_eq_iff]

end CppBase.TaskStore
