import CppBase.Sanity.Sample
import CppBase.Sanity.WellFormed

/-! Ownership of a task changes hands only by compare-and-set. -/

namespace CppBase.TaskStore

open CppBase.Lib

def Store.OwnedBy (s : Store) (key T : String) : Prop := ∃ h, s.task key = some h ∧ h.tm = some (.str T)

def Store.Owned (s : Store) (key : String) : Prop := ∃ T, T ≠ "" ∧ s.OwnedBy key T

def Store.Acquires (s : Store) (key : String) (e : Event) (T : String) : Prop :=
  ¬ s.Owned key ∧ T ≠ "" ∧ (s.next e).OwnedBy key T

/-- The manager ids among the arguments are non-empty. The `iTm` of
`update_task_sap` is not one of them: the empty string gives the task up. -/
def Call.IdsNonempty : Call → Prop
  | .command (.startTask a) => a.iMyTm ≠ ""
  | .command (.stopTask a) => a.iMyTm ≠ ""
  | .command (.preStopTask _) => True
  | .ownership (.auditTask a) => a.iTmId ≠ ""
  | .ownership (.loadAllTask _ a) => a.iTmId ≠ ""
  | .ownership (.loadbalancePreemptTask a) => a.iMyTmId ≠ "" ∧ a.iOldTmId ≠ ""
  | .ownership (.postponedPreemptTask a) => a.iMyTmId ≠ ""
  | .ownership (.preemptTmTask _ a) => a.iMyTmId ≠ "" ∧ a.iOldTmId ≠ ""
  | .ownership (.onTmNotifyControl a) => a.iMyTmId ≠ ""
  | .ownership (.onTmNotifyUpdate a) => a.iMyTmId ≠ ""
  | .ownership (.updateTaskSap a) => a.iMyTm ≠ ""

def idsNonempty (_ : Store) : Event → Prop
  | .call c => c.IdsNonempty
  | .expire _ => True

/-- The calls that take a task nobody owns. -/
def Call.Claims : Call → String → Prop
  | .command (.startTask a), T => tonumber (some a.iIdle) = some 1 ∧ T = a.iMyTm
  | .ownership (.postponedPreemptTask a), T => T = a.iMyTmId
  | .ownership (.onTmNotifyControl a), T => T = a.iMyTmId
  | _, _ => False

/-- The calls that may pass a running task on from the manager `A`. -/
def Call.TakesFrom : Call → String → Prop
  | .ownership (.loadbalancePreemptTask a), A => a.iOldTmId = A
  | .ownership (.preemptTmTask _ a), A => a.iOldTmId = A
  | .ownership (.updateTaskSap a), A => a.iMyTm = A
  | _, _ => False

/-- The call by which the manager `A` may give a running task up. -/
def Call.GivesUp : Call → String → Prop
  | .ownership (.updateTaskSap a), A => a.iMyTm = A
  | _, _ => False

theorem StartTask.settle_tm_eq (a : StartTask) (h : TaskHash) :
    (a.settle h).tm = if a.Acquires h then some (.str a.iMyTm) else h.tm := by
  simp only [StartTask.settle, bump_tm]
  split_ifs <;> rfl

theorem StopTask.settle_tm_eq (a : StopTask) (h : TaskHash) :
    (a.settle h).tm = if h.tm = some (.str a.iMyTm) then some (.str "") else h.tm := by
  simp only [StopTask.settle, bump_tm]
  split_ifs <;> rfl

theorem Command.written_tm {c : Command} {o : Option TaskHash} {h : TaskHash} (hw : c.written o = some h) :
    h.tm = some (.str "") ∨ ∃ h₀, o = some h₀ ∧ h.tm = h₀.tm := by
  cases o with
  | none => exact Or.inl (c.written_none hw).2.1
  | some h₀ => exact Or.inr ⟨h₀, rfl, (c.written_some hw).2.1⟩

/-- A command never hands an owned task to somebody else: a start leaves the
owner in place, a stop can only clear it. -/
theorem Command.settle_tm_cases {c : Command} {o : Option TaskHash} {h : TaskHash} (hw : c.written o = some h) :
    ((∃ h₀, o = some h₀ ∧ (c.settle h).tm = h₀.tm) ∨ (c.settle h).tm = some (.str "")) ∨
      ∃ a, c = .startTask a ∧ a.Acquires h ∧ (c.settle h).tm = some (.str a.iMyTm) := by
  have keep : (c.settle h).tm = h.tm →
      (∃ h₀, o = some h₀ ∧ (c.settle h).tm = h₀.tm) ∨ (c.settle h).tm = some (.str "") := by
    intro hs
    rcases c.written_tm hw with h1 | ⟨h₀, h1, h2⟩
    · exact Or.inr (hs.trans h1)
    · exact Or.inl ⟨h₀, h1, hs.trans h2⟩
  cases c with
  | startTask a =>
    by_cases hq : a.Acquires h
    · exact Or.inr ⟨a, rfl, hq, by simp only [settle, StartTask.settle_tm_eq, hq, if_true]⟩
    · exact Or.inl (keep (by simp only [settle, StartTask.settle_tm_eq, hq, if_false]))
  | stopTask a =>
    by_cases hq : h.tm = some (.str a.iMyTm)
    · exact Or.inl (Or.inr (by simp only [settle, StopTask.settle_tm_eq, hq, if_true]))
    · exact Or.inl (keep (by simp only [settle, StopTask.settle_tm_eq, hq, if_false]))
  | preStopTask a => exact Or.inl (keep bump_tm)

/-- Only the three claiming calls give an unowned task to a manager. -/
theorem claims_of_acquires {s : Store} {key T : String} {e : Event} (hids : idsNonempty s e)
    (ha : s.Acquires key e T) : ∃ c, e = .call c ∧ c.Claims T := by
  obtain ⟨hun, hT, h', hk', htm'⟩ := ha
  have notBefore : ∀ h, s.task key = some h → h.tm ≠ some (.str T) := fun h hk htm =>
    hun ⟨T, hT, h, hk, htm⟩
  have hst := next_taskStep s e key
  rw [hk'] at hst
  generalize ho : s.task key = o at hst
  cases hst with
  | same => exact absurd htm' (notBefore h' ho)
  | @command c _ h _ hw =>
    rcases c.settle_tm_cases hw with (⟨h₀, rfl, hs⟩ | hs) | ⟨a, rfl, hq, hs⟩
    · exact absurd (hs.symm.trans htm') (notBefore h₀ ho)
    · rw [hs, Option.some.injEq, Val.str.injEq] at htm'
      exact absurd htm'.symm hT
    · rw [hs, Option.some.injEq, Val.str.injEq] at htm'
      exact ⟨_, rfl, hq.2, htm'.symm⟩
  | @ownership c h _ hm =>
    have owned : ∀ A, A ≠ "" → h.tm ≠ some (.str A) := fun A hA htm => hun ⟨A, hA, h, ho, htm⟩
    cases c with
    | auditTask a => exact absurd hm.1 (owned _ hids)
    | loadAllTask order a => exact absurd hm.1 (owned _ hids)
    | loadbalancePreemptTask a => exact absurd hm.1 (owned _ hids.2)
    | postponedPreemptTask a =>
      obtain ⟨-, -, rfl⟩ := hm
      rw [TaskHash.takenBy, Option.some.injEq, Val.str.injEq] at htm'
      exact ⟨_, rfl, htm'.symm⟩
    | preemptTmTask order a => exact absurd hm.1 (owned _ hids.2)
    | onTmNotifyControl a =>
      obtain ⟨-, -, rfl⟩ := hm
      rw [TaskHash.takenBy, Option.some.injEq, Val.str.injEq] at htm'
      exact ⟨_, rfl, htm'.symm⟩
    | onTmNotifyUpdate a =>
      obtain ⟨-, rfl⟩ := hm
      rw [bump_tm, TaskHash.release, Option.some.injEq, Val.str.injEq] at htm'
      exact absurd htm'.symm hT
    | updateTaskSap a => exact absurd hm.1 (owned _ hids)

/-- An owned task stops being owned only by expiring or by having `tm` emptied. -/
theorem released_of_not_owned {s : Store} (hs : s.Wf) {key : String} {e : Event} (ho : s.Owned key)
    (hn : ¬ (s.next e).Owned key) :
    e = .expire key ∨ ∃ c, e = .call c ∧ (s.next e).OwnedBy key "" := by
  obtain ⟨T, hT, h, hk, htm⟩ := ho
  cases hk' : (s.next e).task key with
  | none =>
    have hst := next_taskStep s e key
    rw [hk, hk'] at hst
    cases hst
    exact Or.inl rfl
  | some h' =>
    obtain ⟨T', htm'⟩ := (hs.next e key h' hk').tm
    by_cases hT' : T' = ""
    · subst hT'
      cases e with
      | call c => exact Or.inr ⟨c, rfl, h', hk', htm'⟩
      | expire k =>
        by_cases hkk : key = k
        · exact Or.inl (by rw [hkk])
        · -- another key's expiry leaves this task owned
          simp only [Store.next, Store.expireKey, Function.update_of_ne hkk, hk, Option.some.injEq] at hk'
          subst hk'
          rw [htm, Option.some.injEq, Val.str.injEq] at htm'
          exact absurd htm' hT
    · exact absurd ⟨T', hT', h', hk', htm'⟩ hn

/-- While `opt = 1`, the owner of a task changes only through a call that names it. -/
theorem tm_change_running {s : Store} {key A B : String} {h h' : TaskHash} {c : Call}
    (hids : c.IdsNonempty) (hk : s.task key = some h) (hopt : h.opt = some (.num 1))
    (hA : h.tm = some (.str A)) (hAne : A ≠ "") (hk' : (c.run s).task key = some h')
    (hB : h'.tm = some (.str B)) (hAB : B ≠ A) :
    (B ≠ "" → c.TakesFrom A) ∧ (B = "" → h'.opt = some (.num 1) → c.GivesUp A) := by
  have hst := next_taskStep s (.call c) key
  rw [Store.next, hk, hk'] at hst
  have tmA : ∀ T, h.tm = some (.str T) → T = A := by
    intro T hT
    rw [hA, Option.some.injEq, Val.str.injEq] at hT
    exact hT.symm
  have zero : tonumber h.opt ≠ some 0 := by simp [hopt]
  cases hst with
  | same =>
    rw [hA, Option.some.injEq, Val.str.injEq] at hB
    exact absurd hB.symm hAB
  | @command c _ hw' _ hw =>
    have htm := (c.written_some hw).2.1.trans hA
    cases c with
    | startTask a =>
      have hq : ¬ a.Acquires hw' := by
        intro hq
        rw [StartTask.Acquires, htm, Option.some.injEq, Val.str.injEq] at hq
        exact hAne hq.1
      rw [Command.settle, StartTask.settle_tm_eq, if_neg hq, htm, Option.some.injEq, Val.str.injEq] at hB
      exact absurd hB.symm hAB
    | stopTask a =>
      -- a stop that clears the owner leaves `opt = 0`
      have hopt' : hw'.opt = some (.num 0) := by
        simp only [Command.written] at hw
        rcases a.written_inv hw with ⟨ho, -⟩ | ⟨h₀, -, ⟨-, -, rfl⟩ | ⟨-, rfl⟩⟩
        · cases ho
        · rfl
        · rfl
      rw [Command.settle, StopTask.settle_tm_eq, htm] at hB
      split_ifs at hB
      · rw [Option.some.injEq, Val.str.injEq] at hB
        subst hB
        refine ⟨fun hne => absurd rfl hne, fun _ hone => ?_⟩
        rw [opt_eq_of_versioned (Command.settle_versioned _ hw'), hopt', Option.some.injEq, Val.num.injEq] at hone
        exact absurd hone (by decide)
      · rw [Option.some.injEq, Val.str.injEq] at hB
        exact absurd hB.symm hAB
    | preStopTask a =>
      rw [Command.settle, bump_tm, htm, Option.some.injEq, Val.str.injEq] at hB
      exact absurd hB.symm hAB
  | @ownership c _ _ hm =>
    cases c with
    | auditTask a => exact absurd hm.2.1 zero
    | loadAllTask order a =>
      obtain ⟨-, rfl⟩ := hm
      rw [bump_tm, hA, Option.some.injEq, Val.str.injEq] at hB
      exact absurd hB.symm hAB
    | loadbalancePreemptTask a =>
      obtain ⟨hold, -, rfl⟩ := hm
      rw [TaskHash.takenBy, Option.some.injEq, Val.str.injEq] at hB
      exact ⟨fun _ => tmA _ hold, fun hB' => absurd (hB.trans hB') hids.1⟩
    | postponedPreemptTask a => exact absurd (tmA _ hm.1).symm hAne
    | preemptTmTask order a =>
      obtain ⟨hold, -, rfl⟩ := hm
      rw [TaskHash.takenBy, Option.some.injEq, Val.str.injEq] at hB
      exact ⟨fun _ => tmA _ hold, fun hB' => absurd (hB.trans hB') hids.1⟩
    | onTmNotifyControl a => exact absurd (tmA _ hm.1).symm hAne
    | onTmNotifyUpdate a => exact absurd hm.1 zero
    | updateTaskSap a => exact ⟨fun _ => tmA _ hm.1, fun _ _ => tmA _ hm.1⟩

/-- Managers with non-empty ids change the owner of a task only by compare-and-set:
an unowned task is taken by one of the three claiming calls, between two such takings
it expires or its `tm` is emptied, and while it runs it passes from `A` to `B` only
through a call that names `A` as the old owner, and from `A` to nobody only through
`update_task_sap` of `A`. -/
theorem owner_changes_by_cas {es : List Event} {s : Store} (key : String)
    (hrun : Run Store.next idsNonempty Store.empty es s) :
    (∀ e T, idsNonempty s e → s.Acquires key e T → ∃ c, e = .call c ∧ c.Claims T) ∧
    (∀ e₁ T₁ es' s' e₂ T₂, idsNonempty s e₁ → s.Acquires key e₁ T₁ →
      Run Store.next idsNonempty (s.next e₁) es' s' → idsNonempty s' e₂ → s'.Acquires key e₂ T₂ →
      ∃ pre e post u, es' = pre ++ e :: post ∧ Run Store.next idsNonempty (s.next e₁) pre u ∧
        Run Store.next idsNonempty (u.next e) post s' ∧
        (e = .expire key ∨ (u.Owned key ∧ ∃ c, e = .call c ∧ (u.next e).OwnedBy key ""))) ∧
    (∀ (c : Call) A B h h', c.IdsNonempty → s.task key = some h → h.opt = some (.num 1) →
      h.tm = some (.str A) → A ≠ "" → (c.run s).task key = some h' → h'.tm = some (.str B) → B ≠ A →
      (B ≠ "" → c.TakesFrom A) ∧ (B = "" → h'.opt = some (.num 1) → c.GivesUp A)) := by
  have hs := wf_of_run hrun
  refine ⟨fun e T hids ha => claims_of_acquires hids ha, ?_, ?_⟩
  · intro e₁ T₁ es' s' e₂ T₂ hids₁ ha₁ hrun' hids₂ ha₂
    have hown : (s.next e₁).Owned key := ⟨T₁, ha₁.2.1, ha₁.2.2⟩
    obtain ⟨pre, e, post, u, rfl, hpre, hok, hu, hu', hpost⟩ :=
      hrun'.crossing (P := fun s => s.Owned key) hown ha₂.1
    refine ⟨pre, e, post, u, rfl, hpre, hpost, ?_⟩
    have huwf : u.Wf := hpre.invariant (fun _ e _ hs => hs.next e) (hs.next e₁)
    rcases released_of_not_owned huwf hu hu' with he | hc
    · exact Or.inl he
    · exact Or.inr ⟨hu, hc⟩
  · intro c A B h h' hids hk hopt hA hAne hk' hB hAB
    exact tm_change_running hids hk hopt hA hAne hk' hB hAB

namespace Sample

/-- `B` takes the task over from `A` and then gives it up. -/
def balanceCall : Call :=
  .ownership (.loadbalancePreemptTask ⟨"task:x", "x", "B", "A", "tm:B", .num 100⟩)
def giveUpCall : Call := .ownership (.updateTaskSap ⟨"task:x", "B", "", .str "", .str ""⟩)
def postponedCall : Call := .ownership (.postponedPreemptTask ⟨"task:x", "x", "C", "tm:C", .num 101⟩)

def started : Store := Store.empty.next (.call (startCall "A" "x" 1))
def givenUp : Store := (started.next (.call balanceCall)).next (.call giveUpCall)

end Sample

theorem ownedBy_of_bind {s : Store} {key T : String} (h : (s.task key).bind (·.tm) = some (.str T)) :
    s.OwnedBy key T :=
  Option.bind_eq_some_iff.mp h

theorem not_owned_of_bind {s : Store} {key : String} (h : ∀ T, T ≠ "" → (s.task key).bind (·.tm) ≠ some (.str T)) :
    ¬ s.Owned key := by
  rintro ⟨T, hT, hash, hk, htm⟩
  exact h T hT (by rw [hk, Option.bind_some, htm])

open Sample in
/-- `A` starts the task, `B` takes it over and gives it up, and `C` takes it. -/
theorem owner_changes_twice :
    (Store.empty.Acquires "task:x" (.call (startCall "A" "x" 1)) "A" ∧ (startCall "A" "x" 1).Claims "A") ∧
      balanceCall.TakesFrom "A" ∧
      givenUp.Acquires "task:x" (.call postponedCall) "C" ∧
      ∃ pre e post u, [.call balanceCall, .call giveUpCall] = pre ++ e :: post ∧
        Run Store.next idsNonempty started pre u ∧ Run Store.next idsNonempty (u.next e) post givenUp ∧
        (e = .expire "task:x" ∨ (u.Owned "task:x" ∧ ∃ c, e = .call c ∧ (u.next e).OwnedBy "task:x" "")) := by
  have hstart : idsNonempty Store.empty (.call (startCall "A" "x" 1)) := show "A" ≠ "" by decide
  have hbalance : balanceCall.IdsNonempty := show "B" ≠ "" ∧ "A" ≠ "" by decide
  have hgiveUp : giveUpCall.IdsNonempty := show "B" ≠ "" by decide
  have hpostponed : idsNonempty givenUp (.call postponedCall) := show "C" ≠ "" by decide
  have hacq : Store.empty.Acquires "task:x" (.call (startCall "A" "x" 1)) "A" :=
    ⟨not_owned_of_bind (by simp [Store.empty]), by decide, ownedBy_of_bind (by decide +kernel)⟩
  have hempty : (givenUp.task "task:x").bind (·.tm) = some (.str "") := by decide +kernel
  have hacq' : givenUp.Acquires "task:x" (.call postponedCall) "C" := by
    refine ⟨not_owned_of_bind fun T hT => ?_, by decide, ownedBy_of_bind (by decide +kernel)⟩
    rw [hempty]
    simpa using hT.symm
  have hrun : Run Store.next idsNonempty started [.call balanceCall, .call giveUpCall] givenUp :=
    .cons hbalance (.cons hgiveUp (.nil _))
  obtain ⟨hclaims, hbetween, -⟩ := owner_changes_by_cas "task:x" (.nil Store.empty)
  obtain ⟨-, -, htakes⟩ := owner_changes_by_cas "task:x" (.cons hstart (.nil started))
  obtain ⟨c, hc, hclaim⟩ := hclaims _ _ hstart hacq
  cases hc
  -- the task runs under `A` before the call and under `B` behind it
  obtain ⟨h, hk, hA⟩ := ownedBy_of_bind (by decide +kernel : (started.task "task:x").bind (·.tm) = some (.str "A"))
  obtain ⟨h', hk', hB⟩ :=
    ownedBy_of_bind (by decide +kernel : ((balanceCall.run started).task "task:x").bind (·.tm) = some (.str "B"))
  have hopt : h.opt = some (.num 1) := by
    have hone : (started.task "task:x").bind (·.opt) = some (.num 1) := by decide +kernel
    rwa [hk] at hone
  refine ⟨⟨hacq, hclaim⟩, ?_, hacq', hbetween _ _ _ _ _ _ hstart hacq hrun hpostponed hacq'⟩
  exact (htakes balanceCall "A" "B" h h' hbalance hk hopt hA (by decide) hk' hB (by decide)).1 (by decide)

end CppBase.TaskStore
