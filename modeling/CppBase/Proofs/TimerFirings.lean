import Mathlib.Data.List.Perm.Subperm
import CppBase.Sanity.TimerHistory
import CppBase.Sanity.TimerRounds

/-! A registration replaces the previous one of its name only as far as the
earlier due times of the name do no harm: deletion and registration leave them
in `_timers`, where they fire whatever event the name has by then. -/

namespace CppBase.Utility.AsyncTimer

open CppBase.Lib

/-- No due time left over from earlier registrations of the name can fire the new one too early or twice. -/
def Clean (s : AsyncTimer) : Op → Prop
  | .addTimer _ name _ _ => s.timers.entries name = []
  | .addAfter now name wait _ => ∀ e ∈ s.timers.entries name, now + wait ≤ e.1
  | _ => True

def Op.Positive : Op → Prop
  | .addTimer _ _ interval _ => 1 ≤ interval
  | .addAfter _ _ wait _ => 1 ≤ wait
  | _ => True

/-- The due times of a name fire its event `ev` as the history allows. -/
structure Serves (timers : Multimap ℤ String) (h : List TimerRecord) (name : String) (ev : WaitEvent) : Prop where
  live : ∃ l, current name h = some l ∧ l.registration.event = ev ∧
    (ev.isTimer = true → l.registration.wait = ev.interval) ∧ ∀ e ∈ timers.entries name, l.MayFire e.1
  periodic : ev.isTimer = true → 1 ≤ ev.interval ∧ (timers.entries name).length ≤ 1

structure Inv (s : AsyncTimer) (h : List TimerRecord) : Prop where
  legal : Legal h
  serves : ∀ name ev, s.events name = some ev → Serves s.timers h name ev

variable {s t : AsyncTimer} {h h' : List TimerRecord} {timers timers' : Multimap ℤ String} {name : String}
  {ev : WaitEvent} {now : ℤ}

theorem Serves.frame (hs : Serves timers h name ev) (hcur : current name h' = current name h)
    (hsub : (timers'.entries name).Subperm (timers.entries name)) : Serves timers' h' name ev := by
  obtain ⟨l, hl, hev, hwait, hfire⟩ := hs.live
  refine ⟨⟨l, hcur.trans hl, hev, hwait, fun e he => hfire e (hsub.subset he)⟩, fun ht => ?_⟩
  exact ⟨(hs.periodic ht).1, hsub.length_le.trans (hs.periodic ht).2⟩

theorem inv_init : init.Inv init.history := ⟨legal_nil, nofun⟩

section Registering

theorem Inv.register (hinv : s.Inv s.history) {wait : ℤ}
    (hperiodic : ev.isTimer = true → wait = ev.interval ∧ 1 ≤ wait ∧ s.timers.entries name = [])
    (hold : ∀ e ∈ s.timers.entries name, now + wait ≤ e.1) :
    (s.register now name wait ev).Inv (s.register now name wait ev).history := by
  refine ⟨hinv.legal.snoc nofun, ?_⟩
  intro n ev' hev'
  simp only [AsyncTimer.register] at hev' ⊢
  by_cases hn : n = name
  · subst hn
    obtain rfl : ev = ev' := by simpa using hev'
    have hperm := s.timers.entries_insert_self (now + wait) n
    refine ⟨⟨⟨⟨n, now, wait, ev⟩, []⟩, by simp [current_snoc, track], rfl, fun ht => (hperiodic ht).1, ?_⟩, ?_⟩
    · intro e he
      have hdue : now + wait ≤ e.1 := by
        rcases List.mem_cons.mp (hperm.subset he) with rfl | he
        · exact le_rfl
        · exact hold e he
      exact ⟨hdue, by simp, fun _ => rfl⟩
    · intro ht
      obtain ⟨hwait, hpos, hnil⟩ := hperiodic ht
      exact ⟨hwait ▸ hpos, by simp [hperm.length_eq, hnil]⟩
  · rw [Function.update_of_ne hn] at hev'
    refine (hinv.serves n ev' hev').frame ?_ (s.timers.entries_insert_of_ne _ (Ne.symm hn)).subperm
    simp [current_snoc, track, Ne.symm hn]

theorem Inv.delTimer (hinv : s.Inv s.history) (name : String) :
    (s.delTimer name).Inv (s.delTimer name).history := by
  refine ⟨hinv.legal.snoc nofun, ?_⟩
  intro n ev hev
  by_cases hn : n = name
  · simp [AsyncTimer.delTimer, hn] at hev
  · simp only [AsyncTimer.delTimer, Function.update_of_ne hn] at hev
    refine (hinv.serves n ev hev).frame ?_ (List.Subperm.refl _)
    simp [AsyncTimer.delTimer, current_snoc, track, Ne.symm hn]

end Registering

section Checking

def firedHistory (h : List TimerRecord) (now : ℤ) (fires : List (String × WaitEvent)) : List TimerRecord :=
  h ++ fires.map fun f => .fired f.1 f.2 now

theorem firedHistory_snoc (h : List TimerRecord) (now : ℤ) (fires : List (String × WaitEvent))
    (f : String × WaitEvent) :
    firedHistory h now (fires ++ [f]) = firedHistory h now fires ++ [.fired f.1 f.2 now] := by
  simp [firedHistory]

theorem current_fired_of_ne (h : List TimerRecord) {n : String} (hn : n ≠ name) :
    current n (h ++ [.fired name ev now]) = current n h := by
  simp [current_snoc, track, Ne.symm hn]

/-- An entry whose name has no event is dropped. -/
theorem Inv.eraseBegin (hinv : s.Inv h) : { s with timers := s.timers.eraseBegin }.Inv h :=
  ⟨hinv.legal, fun n ev hev => (hinv.serves n ev hev).frame rfl (s.timers.entries_eraseBegin n).subperm⟩

variable {due : ℤ} {rest : List (ℤ × String)}

/-- The event of a due entry may fire. -/
theorem Inv.fires (hinv : s.Inv h) (hbegin : s.timers.toList = (due, name) :: rest) (hdue : due ≤ now)
    (hev : s.events name = some ev) : Legal (h ++ [.fired name ev now]) := by
  obtain ⟨l, hl, hreg, -, hfire⟩ := (hinv.serves name ev hev).live
  have hmay : l.MayFire due := hfire (due, name) (by simp [Multimap.entries, hbegin])
  refine hinv.legal.snoc ?_
  rintro _ _ _ ⟨⟩
  exact ⟨l, hl, hreg, hmay.registered.trans hdue, fun ht x hx => (hmay.periodic ht x hx).trans hdue, hmay.oneShot⟩

theorem Inv.again (hinv : s.Inv h) (hbegin : s.timers.toList = (due, name) :: rest) (hdue : due ≤ now)
    (hev : s.events name = some ev) (htimer : ev.isTimer = true) :
    { s with timers := s.timers.eraseBegin.insert (now + ev.interval) name }.Inv
      (h ++ [TimerRecord.fired name ev now]) := by
  refine ⟨hinv.fires hbegin hdue hev, ?_⟩
  intro n ev' hev'
  by_cases hn : n = name
  · subst hn
    obtain rfl : ev = ev' := Option.some.inj (hev.symm.trans hev')
    obtain ⟨l, hl, hreg, hwait, hfire⟩ := (hinv.serves n ev hev).live
    obtain ⟨hpos, hone⟩ := (hinv.serves n ev hev).periodic htimer
    have hmay : l.MayFire due := hfire (due, n) (by simp [Multimap.entries, hbegin])
    have hperm := s.timers.eraseBegin.entries_insert_self (now + ev.interval) n
    rw [Multimap.entries_eraseBegin_eq_nil hbegin hone] at hperm
    refine ⟨⟨{ l with firings := l.firings ++ [now] }, by simp [current_snoc, track, hl], hreg, hwait, ?_⟩,
      fun _ => ⟨hpos, by simp [hperm.length_eq]⟩⟩
    intro e he
    obtain rfl := List.mem_singleton.mp (hperm.subset he)
    have hw := hwait htimer
    refine ⟨?_, ?_, fun ht => by simp [hreg, htimer] at ht⟩
    · have := hmay.registered
      show l.registration.time + l.registration.wait ≤ now + ev.interval
      omega
    · intro _ x hx
      show x + l.registration.wait ≤ now + ev.interval
      rcases List.mem_append.mp hx with hx | hx
      · have := hmay.periodic (hreg ▸ htimer) x hx
        omega
      · obtain rfl := List.mem_singleton.mp hx
        omega
  · refine (hinv.serves n ev' hev').frame (current_fired_of_ne h hn) ?_
    exact ((s.timers.eraseBegin.entries_insert_of_ne _ (Ne.symm hn)).subperm).trans
      (s.timers.entries_eraseBegin n).subperm

theorem Inv.once (hinv : s.Inv h) (hbegin : s.timers.toList = (due, name) :: rest) (hdue : due ≤ now)
    (hev : s.events name = some ev) :
    { s with timers := s.timers.eraseBegin, events := Function.update s.events name none }.Inv
      (h ++ [TimerRecord.fired name ev now]) := by
  refine ⟨hinv.fires hbegin hdue hev, ?_⟩
  intro n ev' hev'
  by_cases hn : n = name
  · simp [hn] at hev'
  · simp only [Function.update_of_ne hn] at hev'
    exact (hinv.serves n ev' hev').frame (current_fired_of_ne h hn) (s.timers.entries_eraseBegin n).subperm

theorem Inv.round {fires fires' : List (String × WaitEvent)} (hround : Round now s fires t fires')
    (hinv : s.Inv (firedHistory s.history now fires)) :
    t.timers.countLe now < s.timers.countLe now ∧ t.Inv (firedHistory t.history now fires') := by
  refine ⟨hround.countLe fun e _ _ ev hev htimer => ((hinv.serves e.2 ev hev).periodic htimer).1, ?_⟩
  cases hround with
  | drop => exact hinv.eraseBegin
  | again hbegin hdue hev htimer =>
    rw [firedHistory_snoc]
    exact hinv.again hbegin hdue hev htimer
  | once hbegin hdue hev =>
    rw [firedHistory_snoc]
    exact hinv.once hbegin hdue hev

/-- `check` returns, and if the timer is started it leaves nothing due. -/
theorem Inv.check (hinv : s.Inv s.history) (now : ℤ) : ∃ b t, s.check now = .ok (b, t) ∧ t.Inv t.history ∧
    (b = true → ∀ e ∈ t.timers.toList, now < e.1) := by
  unfold AsyncTimer.check
  by_cases hstart : s.start = false
  · exact ⟨false, s, if_pos hstart, hinv, nofun⟩
  · rw [if_neg hstart]
    have hinv' : s.Inv (firedHistory s.history now []) := by simpa [firedHistory] using hinv
    obtain ⟨t, fires, hloop, ht, hlate⟩ :=
      checkLoop_rule (I := fun s fires => s.Inv (firedHistory s.history now fires))
        (fun _ _ _ _ hround hinv => hinv.round hround) hinv' (Nat.lt_succ_of_le (s.timers.countLe_le_length now))
    rw [hloop]
    exact ⟨true, _, rfl, ⟨ht.legal, ht.serves⟩, fun _ => hlate⟩

end Checking

theorem Inv.step (hinv : s.Inv s.history) {op : Op} (hpos : op.Positive) (hclean : s.Clean op) :
    ∃ t, s.step op = .ok t ∧ t.Inv t.history := by
  cases op with
  | start => exact ⟨_, rfl, hinv.legal, hinv.serves⟩
  | stop => exact ⟨_, rfl, hinv.legal, hinv.serves⟩
  | addTimer now name interval callback =>
    refine ⟨_, rfl, hinv.register (fun _ => ⟨rfl, hpos, hclean⟩) ?_⟩
    intro e he
    rw [show s.timers.entries name = [] from hclean] at he
    cases he
  | addAfter now name wait callback => exact ⟨_, rfl, hinv.register nofun hclean⟩
  | delTimer name => exact ⟨_, rfl, hinv.delTimer name⟩
  | delAfter name => exact ⟨_, rfl, hinv.delTimer name⟩
  | check now =>
    obtain ⟨b, t, ht, hinv', -⟩ := hinv.check now
    exact ⟨t, by rw [AsyncTimer.step, ht]; rfl, hinv'⟩

/-- Where each registration is made when no due time of its name is in its way,
every `check` returns and every firing is allowed by the registration that is
current. -/
theorem firings_legal_of_clean {ops : List Op} (hpos : ∀ op ∈ ops, op.Positive)
    (hclean : Along step Clean init ops) :
    ∃ s, runAll step init ops = .ok s ∧ Legal s.history := by
  have hops : Along step (fun s op => op.Positive ∧ s.Clean op) init ops :=
    fun pre op post s heq hpre => ⟨hpos op (by simp [heq]), hclean pre op post s heq hpre⟩
  obtain ⟨s, hs, hinv⟩ := hops.runAll_ok (I := fun s => s.Inv s.history)
    (fun s op hinv hop => hinv.step hop.1 hop.2) inv_init
  exact ⟨s, hs, hinv.legal⟩

def tidy : List Op :=
  [.start, .addTimer 0 "poll" 10 1, .addAfter 2 "retry" 3 2, .check 10, .delTimer "poll", .check 20,
    .addTimer 20 "poll" 5 3, .check 25]

theorem firings_legal_tidy : ∃ s, runAll step init tidy = .ok s ∧ Legal s.history ∧
    s.history.filterMap (fun | .fired name ev now => some (name, ev.callback, now) | _ => none) =
      [("retry", 2, 10), ("poll", 1, 10), ("poll", 3, 25)] := by
  have hclean : Along step Clean init tidy := by
    refine (along_cons rfl).mpr ⟨trivial, ?_⟩
    refine (along_cons rfl).mpr ⟨rfl, ?_⟩
    refine (along_cons rfl).mpr ⟨nofun, ?_⟩
    refine (along_cons rfl).mpr ⟨trivial, ?_⟩
    refine (along_cons rfl).mpr ⟨trivial, ?_⟩
    refine (along_cons rfl).mpr ⟨trivial, ?_⟩
    refine (along_cons rfl).mpr ⟨rfl, ?_⟩
    exact (along_cons rfl).mpr ⟨trivial, along_nil⟩
  obtain ⟨s, hs, hlegal⟩ := firings_legal_of_clean (by simp [tidy, Op.Positive]) hclean
  refine ⟨s, hs, hlegal, ?_⟩
  obtain rfl := Except.ok.inj hs
  rfl

/-- Registered again at 5 with an interval of 100, the name fires at 10. -/
theorem reregistered_fires_early : ∃ s, runAll step init
    [.start, .addTimer 0 "poll" 10 1, .addTimer 5 "poll" 100 2, .check 10] = .ok s ∧ ¬ Legal s.history := by
  refine ⟨_, rfl, fun hlegal => ?_⟩
  obtain ⟨l, hl, -, hmay⟩ := hlegal [.registered ⟨"poll", 0, 10, ⟨0, true, 10, 1⟩⟩,
    .registered ⟨"poll", 5, 100, ⟨1, true, 100, 2⟩⟩] "poll" ⟨1, true, 100, 2⟩ 10 [] rfl
  obtain rfl := Option.some.inj hl
  exact absurd hmay.registered (by decide)

end CppBase.Utility.AsyncTimer
