import CppBase.Sanity.TimerRounds

/-! `check` returns unless a due entry belongs to a timer whose interval is not
positive: such a timer is due again as soon as it has fired. -/

namespace CppBase.Utility.AsyncTimer

open CppBase.Lib

variable {s t : AsyncTimer} {now : ℤ} {fires fires' : List (String × WaitEvent)}

/-- The timer is stopped, or some number of rounds is enough. -/
def Returns (s : AsyncTimer) (now : ℤ) : Prop := s.start = false ∨ ∃ fuel r, s.checkLoop now fuel [] = .ok r

/-- The interval of every timer that is due is positive. -/
def Calm (s : AsyncTimer) (now : ℤ) : Prop :=
  ∀ e ∈ s.timers.toList, e.1 ≤ now → ∀ ev, s.events e.2 = some ev → ev.isTimer = true → 1 ≤ ev.interval

theorem Calm.round (h : Round now s fires t fires') (hcalm : s.Calm now) : t.Calm now := by
  cases h with
  | drop hbegin => exact fun e he => hcalm e (List.mem_of_mem_tail he)
  | again hbegin hdue hev htimer =>
    have hpos := hcalm _ (by rw [hbegin]; exact List.mem_cons_self) hdue _ hev htimer
    intro e he hle
    rcases List.mem_cons.mp ((Multimap.perm_insert _ _ _).subset he) with rfl | he
    · omega
    · exact hcalm e (List.mem_of_mem_tail he) hle
  | @once _ name =>
    intro e he hle ev hev
    by_cases hn : e.2 = name
    · simp [hn] at hev
    · simp only [Function.update_of_ne hn] at hev
      exact hcalm e (List.mem_of_mem_tail he) hle ev hev

/-- A timer that is due and whose interval is not positive stays so. -/
def Restless (s : AsyncTimer) (now : ℤ) : Prop :=
  ∃ e ∈ s.timers.toList, e.1 ≤ now ∧ ∃ ev, s.events e.2 = some ev ∧ ev.isTimer = true ∧ ev.interval ≤ 0

theorem calm_of_not_restless (h : ¬ s.Restless now) : s.Calm now := by
  intro e he hle ev hev htimer
  by_contra hint
  exact h ⟨e, he, hle, ev, hev, htimer, by omega⟩

theorem Restless.round (h : Round now s fires t fires') (hrest : s.Restless now) : t.Restless now := by
  obtain ⟨e, he, hle, ev, hev, htimer, hint⟩ := hrest
  cases h with
  | drop hbegin hdue hnone =>
    rw [hbegin] at he
    rcases List.mem_cons.mp he with rfl | he
    · cases hnone.symm.trans hev
    · exact ⟨e, by simpa [Multimap.eraseBegin, hbegin] using he, hle, ev, hev, htimer, hint⟩
  | @again _ name rest ev' hbegin hdue hev' =>
    have hmem : ∀ x, x = (now + ev'.interval, name) ∨ x ∈ rest →
        x ∈ (s.timers.eraseBegin.insert (now + ev'.interval) name).toList := by
      intro x hx
      apply (Multimap.perm_insert _ _ _).symm.subset
      simpa [Multimap.eraseBegin, hbegin] using hx
    rw [hbegin] at he
    rcases List.mem_cons.mp he with rfl | he
    · obtain rfl : ev' = ev := Option.some.inj (hev'.symm.trans hev)
      exact ⟨_, hmem _ (.inl rfl), by show now + ev'.interval ≤ now; omega, ev', hev, htimer, hint⟩
    · exact ⟨e, hmem e (.inr he), hle, ev, hev, htimer, hint⟩
  | @once _ name rest ev' hbegin hdue hev' honce =>
    have hne : e.2 ≠ name := by
      rintro rfl
      obtain rfl : ev' = ev := Option.some.inj (hev'.symm.trans hev)
      cases htimer.symm.trans honce
    rw [hbegin] at he
    rcases List.mem_cons.mp he with rfl | he
    · exact absurd rfl hne
    · refine ⟨e, by simpa [Multimap.eraseBegin, hbegin] using he, hle, ev, ?_, htimer, hint⟩
      simpa only [Function.update_of_ne hne] using hev

theorem Restless.hangs (h : s.Restless now) (fuel : ℕ) : s.checkLoop now fuel fires = .error .hangs := by
  apply checkLoop_hangs (I := fun s => s.Restless now) _ (fun _ _ _ _ hround h => h.round hround) h
  rintro s ⟨e, he, hle, -⟩
  exact ⟨e, he, hle⟩

/-- While every round leaves it calm, the rounds the model allows are enough. -/
theorem checkLoop_of_calm {I : AsyncTimer → Prop} (hcalm : ∀ s, I s → s.Calm now)
    (hround : ∀ s fires t fires', Round now s fires t fires' → I s → I t) (hI : I s)
    (fires : List (String × WaitEvent)) :
    ∃ t fires', s.checkLoop now (s.timers.toList.length + 1) fires = .ok (t, fires') ∧ I t := by
  obtain ⟨t, fires', hloop, ht, -⟩ := checkLoop_rule (I := fun s _ => I s)
    (fun s _ _ _ hr hs => ⟨hr.countLe (hcalm s hs), hround _ _ _ _ hr hs⟩) hI
    (Nat.lt_succ_of_le (s.timers.countLe_le_length now))
  exact ⟨t, fires', hloop, ht⟩

theorem Calm.checkLoop (h : s.Calm now) (fires : List (String × WaitEvent)) :
    ∃ t fires', s.checkLoop now (s.timers.toList.length + 1) fires = .ok (t, fires') := by
  obtain ⟨t, fires', hloop, -⟩ :=
    checkLoop_of_calm (fun _ h => h) (fun _ _ _ _ hr hs => Calm.round hr hs) h fires
  exact ⟨t, fires', hloop⟩

/-- The number of rounds the model allows is enough whenever any is. -/
theorem check_ok_iff : (∃ r, s.check now = .ok r) ↔ s.Returns now := by
  unfold AsyncTimer.check Returns
  by_cases hstart : s.start = false
  · simp [hstart]
  · rw [if_neg hstart]
    by_cases hrest : s.Restless now
    · simp [hrest.hangs, hstart]
    · obtain ⟨t, fires, hloop⟩ := (calm_of_not_restless hrest).checkLoop []
      rw [hloop]
      exact ⟨fun _ => .inr ⟨_, _, hloop⟩, fun _ => ⟨_, rfl⟩⟩

theorem returns_iff : s.Returns now ↔ s.start = true → s.Calm now := by
  constructor
  · intro h hstart
    apply calm_of_not_restless
    intro hrest
    rcases h with h | ⟨fuel, r, h⟩
    · cases hstart.symm.trans h
    · cases (hrest.hangs fuel).symm.trans h
  · intro h
    cases hstart : s.start with
    | false => exact .inl hstart
    | true =>
      obtain ⟨t, fires, hloop⟩ := (h hstart).checkLoop []
      exact .inr ⟨_, _, hloop⟩

section Runs

/-- Only timers are registered that wait for at least a second. -/
def Op.Waits : Op → Prop
  | .addTimer _ _ interval _ => 1 ≤ interval
  | _ => True

def Steady (s : AsyncTimer) : Prop := ∀ name ev, s.events name = some ev → ev.isTimer = true → 1 ≤ ev.interval

theorem Steady.calm (h : s.Steady) (now : ℤ) : s.Calm now := fun e _ _ => h e.2

theorem Steady.update (h : s.Steady) {name : String} {o : Option WaitEvent}
    (ho : ∀ ev, o = some ev → ev.isTimer = true → 1 ≤ ev.interval) :
    ∀ n ev, Function.update s.events name o n = some ev → ev.isTimer = true → 1 ≤ ev.interval := by
  intro n ev hev
  by_cases hn : n = name
  · subst hn
    exact ho ev (by simpa using hev)
  · rw [Function.update_of_ne hn] at hev
    exact h n ev hev

theorem Steady.round (h : Round now s fires t fires') (hs : s.Steady) : t.Steady := by
  cases h with
  | drop => exact hs
  | again => exact hs
  | once => exact hs.update nofun

theorem Steady.check (h : s.Steady) (now : ℤ) : ∃ b t, s.check now = .ok (b, t) ∧ t.Steady := by
  unfold AsyncTimer.check
  by_cases hstart : s.start = false
  · exact ⟨false, s, if_pos hstart, h⟩
  · obtain ⟨t, fires, hloop, ht⟩ :=
      checkLoop_of_calm (fun _ hs => Steady.calm hs now) (fun _ _ _ _ hr hs => Steady.round hr hs) h []
    rw [if_neg hstart, hloop]
    exact ⟨true, _, rfl, ht⟩

theorem Steady.step (h : s.Steady) {op : Op} (hop : op.Waits) : ∃ t, s.step op = .ok t ∧ t.Steady := by
  cases op with
  | start => exact ⟨_, rfl, h⟩
  | stop => exact ⟨_, rfl, h⟩
  | addTimer now name interval callback =>
    refine ⟨_, rfl, h.update ?_⟩
    rintro _ ⟨⟩ -
    exact hop
  | addAfter now name wait callback =>
    refine ⟨_, rfl, h.update ?_⟩
    rintro _ ⟨⟩ ⟨⟩
  | delTimer name => exact ⟨_, rfl, h.update nofun⟩
  | delAfter name => exact ⟨_, rfl, h.update nofun⟩
  | check now =>
    obtain ⟨b, t, ht, hsteady⟩ := h.check now
    exact ⟨t, by rw [AsyncTimer.step, ht]; rfl, hsteady⟩

end Runs

/-- In every state `check` returns exactly if no timer that is due has an interval
of zero or less; and where no such timer is registered, every call of a run
returns and so does every `check` after it. -/
theorem check_terminates_iff (s : AsyncTimer) (now : ℤ) :
    (s.Returns now ↔ (s.start = true → s.Calm now)) ∧ ((∃ r, s.check now = .ok r) ↔ s.Returns now) ∧
      ∀ ops : List Op, (∀ op ∈ ops, op.Waits) → ∃ t, runAll step init ops = .ok t ∧ ∀ now, t.Returns now := by
  refine ⟨returns_iff, check_ok_iff, fun ops hops => ?_⟩
  have hwaits : Along step (fun _ op => op.Waits) init ops := by
    rintro pre op post s rfl -
    exact hops op (by simp)
  obtain ⟨t, ht, hsteady⟩ := hwaits.runAll_ok (I := Steady) (fun s op h hop => h.step hop) nofun
  exact ⟨t, ht, fun now => returns_iff.mpr fun _ => hsteady.calm now⟩

theorem check_terminates_poll :
    ∃ s, runAll step init [.start, .addTimer 0 "poll" 5 1, .addAfter 0 "once" (-3) 2, .check 12] = .ok s ∧
      ∀ now, s.Returns now :=
  (check_terminates_iff init 0).2.2 _ (by simp [Op.Waits])

/-- A timer with an interval of zero: `check` takes its entry out and puts it back for ever. -/
theorem zero_interval_hangs : ∃ s, runAll step init [.start, .addTimer 7 "poll" 0 1] = .ok s ∧ ¬ s.Returns 7 := by
  refine ⟨_, rfl, fun h => ?_⟩
  have hcalm := returns_iff.mp h rfl
  exact absurd (hcalm (7, "poll") (by decide) (by decide) ⟨0, true, 0, 1⟩ rfl rfl) (by decide)

end CppBase.Utility.AsyncTimer
