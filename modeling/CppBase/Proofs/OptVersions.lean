import CppBase.Proofs.TaskVersions

/-! Commands that are stale or do not apply change nothing, and `optVer` only
ever moves forward. -/

namespace CppBase.TaskStore

open CppBase.Lib

/-- The version of the last command is the same, or a larger number. -/
def OptVerLe (h h' : TaskHash) : Prop :=
  h'.optVer = h.optVer ∨ ∃ x y, tonumber h.optVer = some x ∧ tonumber h'.optVer = some y ∧ x < y

theorem OptVerLe.trans {h₁ h₂ h₃ : TaskHash} (h : OptVerLe h₁ h₂) (h' : OptVerLe h₂ h₃) : OptVerLe h₁ h₃ := by
  rcases h with h | ⟨x, y, hx, hy, hlt⟩
  · rcases h' with h' | ⟨y, z, hy, hz, hlt⟩
    · exact Or.inl (h'.trans h)
    · exact Or.inr ⟨y, z, by rw [← h, hy], hz, hlt⟩
  · rcases h' with h' | ⟨y', z, hy', hz, hlt'⟩
    · exact Or.inr ⟨x, y, hx, by rw [h', hy], hlt⟩
    · rw [hy, Option.some.injEq] at hy'
      subst hy'
      exact Or.inr ⟨x, z, hx, hz, hlt.trans hlt'⟩

theorem OptVerLe.le {h h' : TaskHash} (hle : OptVerLe h h') {x : ℚ} (hx : tonumber h.optVer = some x) :
    ∃ y, tonumber h'.optVer = some y ∧ x ≤ y := by
  rcases hle with heq | ⟨x', y, hx', hy, hlt⟩
  · exact ⟨x, by rw [heq, hx], le_rfl⟩
  · rw [hx, Option.some.injEq] at hx'
    subst hx'
    exact ⟨y, hy, hlt.le⟩

/-- Where a well-formed hash takes an external command, the command is newer. -/
theorem Command.newer_of_written {c : Command} {h₀ h : TaskHash} (hwf : h₀.Wf) (hext : c.External)
    (hw : c.written (some h₀) = some h) :
    ∃ x y, tonumber h₀.optVer = some x ∧ tonumber (some c.optVer) = some y ∧ x < y := by
  obtain ⟨v, hv⟩ := hwf.optVer
  rcases (c.written_some hw).2.2 with ⟨-, hok, -⟩ | ⟨hne, -⟩
  · rw [hv] at hok ⊢
    exact lt_of_versionOk hok
  · exact absurd hext hne

theorem optVer_step {s : Store} (hs : s.Wf) {key : String} {h : TaskHash} (hk : s.task key = some h)
    {e : Event} (he : e ≠ .expire key) :
    ∃ h', (s.next e).task key = some h' ∧ OptVerLe h h' := by
  have hst := next_taskStep s e key
  rw [hk] at hst
  generalize (s.next e).task key = o at hst ⊢
  cases hst with
  | same => exact ⟨h, rfl, Or.inl rfl⟩
  | @command c _ h' _ hw =>
    have hv := optVer_eq_of_versioned (c.settle_versioned h')
    refine ⟨_, rfl, ?_⟩
    rcases (c.written_some hw).2.2 with ⟨hext, -, ho⟩ | ⟨-, ho⟩
    · obtain ⟨x, y, hx, hy, hlt⟩ := c.newer_of_written (hs _ _ hk) hext hw
      exact Or.inr ⟨x, y, hx, by rw [hv, ho, hy], hlt⟩
    · exact Or.inl (hv.trans ho)
  | ownership c hm => exact ⟨_, rfl, Or.inl (optVer_eq_of_versioned hm.versioned)⟩
  | expire => exact absurd rfl he

theorem optVer_run {ok : Store → Event → Prop} {s s' : Store} {es : List Event}
    (hrun : Run Store.next ok s es s') (hs : s.Wf) {key : String} (hne : .expire key ∉ es) {h : TaskHash}
    (hk : s.task key = some h) : ∃ h', s'.task key = some h' ∧ OptVerLe h h' := by
  induction hrun generalizing h with
  | nil s => exact ⟨h, hk, Or.inl rfl⟩
  | @cons s t e es hok hrun ih =>
    rw [List.mem_cons, not_or] at hne
    obtain ⟨h₁, hk₁, hstep⟩ := optVer_step hs hk (Ne.symm hne.1)
    obtain ⟨h', hk', hrest⟩ := ih (hs.next e) hne.2 hk₁
    exact ⟨h', hk', hstep.trans hrest⟩

theorem Command.written_of_reply {c : Command} {s t : Store} {r : UpdateReply} (he : exec c.prog s = (.ok r, t)) :
    (r.oUpdated = 0 ∧ c.written (s.task c.key) = none ∧ t = s) ∨
      (r.oUpdated = 1 ∧ ∃ h, c.written (s.task c.key) = some h ∧ t = c.commit h s) := by
  cases hw : c.written (s.task c.key) with
  | none =>
    rcases exec_rejected hw with ⟨r', hr, h0⟩ | ⟨-, hr⟩
    · rw [hr, Prod.mk.injEq, Except.ok.injEq] at he
      obtain ⟨rfl, rfl⟩ := he
      exact Or.inl ⟨h0, rfl, rfl⟩
    · simp [hr] at he
  | some h =>
    rcases exec_accepted hw with ⟨r', hr, h1⟩ | ⟨-, hr⟩
    · rw [hr, Prod.mk.injEq, Except.ok.injEq] at he
      obtain ⟨rfl, rfl⟩ := he
      exact Or.inr ⟨h1, h, rfl, rfl⟩
    · simp [hr] at he

theorem Command.commit_key (c : Command) (h : TaskHash) (s : Store) :
    (c.commit h s).task c.key = some (c.settle h) := by
  rw [commit_task, Function.update_self]

/-- After a command was accepted that is external or creates the task, its version is the one stored. -/
theorem Command.optVer_accepted {c : Command} {o : Option TaskHash} {h : TaskHash}
    (hext : c.External ∨ o = none) (hw : c.written o = some h) : (c.settle h).optVer = some c.optVer := by
  rw [optVer_eq_of_versioned (c.settle_versioned h)]
  cases o with
  | none => exact (c.written_none hw).2.2
  | some h₀ =>
    rcases (c.written_some hw).2.2 with ⟨-, -, ho⟩ | ⟨hne, -⟩
    · exact ho
    · rcases hext with hext | hext
      · exact absurd hext hne
      · cases hext

/-- A command that is not newer than a numeric stored version is turned down in its reply. -/
theorem Command.stale_rejected {c : Command} {s : Store} {h : TaskHash} {x y : ℚ} (hwf : h.Wf)
    (hk : s.task c.key = some h) (hext : c.External) (hx : tonumber h.optVer = some x)
    (hy : tonumber (some c.optVer) = some y) (hle : y ≤ x) :
    ∃ r, exec c.prog s = (.ok r, s) ∧ r.oUpdated = 0 := by
  have hnone : c.written (s.task c.key) = none := by
    rw [hk]
    by_contra hsome
    obtain ⟨h', hw⟩ := Option.ne_none_iff_exists'.mp hsome
    obtain ⟨x', y', hx', hy', hlt⟩ := c.newer_of_written hwf hext hw
    rw [hx, Option.some.injEq] at hx'
    rw [hy, Option.some.injEq] at hy'
    subst hx' hy'
    exact absurd hlt (not_lt.mpr hle)
  rcases exec_rejected hnone with hr | ⟨⟨h', hk', -, hi⟩, -⟩
  · exact hr
  · rw [hk, Option.some.injEq] at hk'
    subst hk'
    rcases hi with hi | hi
    · simp [hx] at hi
    · simp [hy] at hi

/-- In every reachable store: a command that reports `oUpdated = 0` leaves the whole
store alone; an external one that reports 1 on an existing task moves `optVer`
forward to its own version; an internal one keeps `optVer`. Hence `optVer` never
goes back while the key lives, and what is not newer than an accepted command
that was external, or created the task, is rejected. -/
theorem stale_commands_change_nothing {es : List Event} {s : Store}
    (hrun : Run Store.next anyEvent Store.empty es s) :
    (∀ (c : Command) (r : UpdateReply) (t : Store), exec c.prog s = (.ok r, t) →
      (r.oUpdated = 0 ∨ r.oUpdated = 1) ∧ (r.oUpdated = 0 → t = s) ∧
      (∀ h, s.task c.key = some h → c.External → r.oUpdated = 1 →
        ∃ x y h', tonumber h.optVer = some x ∧ tonumber (some c.optVer) = some y ∧ x < y ∧
          t.task c.key = some h' ∧ h'.optVer = some c.optVer)) ∧
    (∀ (c : Command) (h : TaskHash), s.task c.key = some h → ¬ c.External →
      ∃ h', (exec c.prog s).2.task c.key = some h' ∧ h'.optVer = h.optVer) ∧
    (∀ key es' s' h, Run Store.next anyEvent s es' s' → .expire key ∉ es' → s.task key = some h →
      ∃ h', s'.task key = some h' ∧ OptVerLe h h') ∧
    (∀ (c c' : Command) r t es' s' x y, exec c.prog s = (.ok r, t) → r.oUpdated = 1 →
      (c.External ∨ s.task c.key = none) → Run Store.next anyEvent t es' s' → .expire c.key ∉ es' →
      c'.key = c.key → c'.External → tonumber (some c.optVer) = some x → tonumber (some c'.optVer) = some y → y ≤ x →
      ∃ r', exec c'.prog s' = (.ok r', s') ∧ r'.oUpdated = 0) := by
  have hs := wf_of_run hrun
  refine ⟨?_, ?_, fun key es' s' h hrun' hne hk => optVer_run hrun' hs hne hk, ?_⟩
  · intro c r t he
    rcases Command.written_of_reply he with ⟨h0, -, rfl⟩ | ⟨h1, h', hw, rfl⟩
    · exact ⟨Or.inl h0, fun _ => rfl, fun _ _ _ h1 => by omega⟩
    · refine ⟨Or.inr h1, fun h0 => by omega, fun h hk hext _ => ?_⟩
      have hw' := hw
      rw [hk] at hw'
      obtain ⟨x, y, hx, hy, hlt⟩ := c.newer_of_written (hs _ _ hk) hext hw'
      exact ⟨x, y, _, hx, hy, hlt, c.commit_key h' s, c.optVer_accepted (Or.inl hext) hw⟩
  · intro c h hk hint
    have hrun' : (exec c.prog s).2 = (Call.command c).run s := by
      simp only [Call.run, Call.prog, exec_discard]
    rw [hrun']
    rcases c.task_run s c.key with hr | ⟨-, h', hw, hr⟩
    · exact ⟨h, hr.trans hk, rfl⟩
    · rw [hk] at hw
      refine ⟨_, hr, ?_⟩
      rw [optVer_eq_of_versioned (c.settle_versioned h')]
      rcases (c.written_some hw).2.2 with ⟨hext, -⟩ | ⟨-, ho⟩
      · exact absurd hext hint
      · exact ho
  · intro c c' r t es' s' x y he h1 hext hrun' hne hkey hext' hx hy hle
    rcases Command.written_of_reply he with ⟨h0, -⟩ | ⟨-, h, hw, rfl⟩
    · omega
    have ht : (c.commit h s).Wf := by
      have hnext := hs.next (.call (.command c))
      rw [Store.next, c.run_eq, hw] at hnext
      exact hnext
    obtain ⟨h', hk', hle'⟩ := optVer_run hrun' ht hne (c.commit_key h s)
    obtain ⟨z, hz, hxz⟩ := hle'.le (by rw [c.optVer_accepted hext hw]; exact hx)
    have hs' : s'.Wf := hrun'.invariant (fun _ e _ hs => hs.next e) ht
    exact c'.stale_rejected (hs' _ _ hk') (by rw [hkey]; exact hk') hext' hz hy (hle.trans hxz)

theorem stale_replay_rejected :
    ∃ r, exec (Command.startTask (Sample.start "A" "x" 1)).prog ((Sample.startCall "A" "x" 1).run Store.empty) =
      (.ok r, (Sample.startCall "A" "x" 1).run Store.empty) ∧ r.oUpdated = 0 := by
  have hw : (Command.startTask (Sample.start "A" "x" 1)).written none =
      some ((Sample.start "A" "x" 1).write {}).unowned := by
    simp [Command.written, StartTask.written, Sample.start]
  have hrun := Command.run_eq (.startTask (Sample.start "A" "x" 1)) Store.empty
  rw [show Store.empty.task _ = none from rfl, hw, Option.elim_some] at hrun
  rw [show Sample.startCall "A" "x" 1 = .command (.startTask (Sample.start "A" "x" 1)) from rfl, hrun]
  rcases Command.exec_accepted (s := Store.empty) hw with ⟨r, hr, h1⟩ | ⟨hv, -⟩
  · exact (stale_commands_change_nothing (.nil _)).2.2.2 _ _ r _ [] _ 1 1 hr h1 (Or.inl trivial)
      (.nil _) (by simp) rfl trivial rfl rfl le_rfl
  · simp [TaskHash.unowned] at hv

end CppBase.TaskStore
