import CppBase.Sanity.TimerHeap

/-! What holds in every run of a `TimerQueue`, and what becomes of a timer that is cancelled. -/

namespace CppBase.Muduo.TimerQueue

open CppBase.Lib

variable {s t : TimerQueue} {q : ℕ}

def Lives (s : TimerQueue) (id : ℕ × ℕ) : Prop := ∃ timer, s.heap id.1 = some timer ∧ timer.sequence = id.2

/-- Addresses are handed out once at a time, repeating timers do not go back, each address gets to
the loop, and the loop takes `handleRead` apart in its order. -/
def Offered (s : TimerQueue) : Event → Prop
  | .addTimer a _ interval repeats => s.heap a = none ∧ (repeats = true → 0 ≤ interval)
  | .addTimerReturn id => id ∈ s.returning
  | .addTimerInLoop a _ => a ∈ s.waiting
  | .cancelInLoop _ => True
  | .handleRead now => s.batch = none ∧ 0 < now
  | .run => ∃ b, s.batch = some b ∧ b.todo ≠ []
  | .finish _ => ∃ b, s.batch = some b ∧ b.todo = []

/-- A thread that adds a timer is back before the loop deletes it. -/
def Timely (s : TimerQueue) : Event → Prop
  | .addTimerReturn id => s.Lives id
  | _ => True

def Allowed (s : TimerQueue) (e : Event) : Prop := Offered s e ∧ Timely s e

/-- The timers that are not in the queue. -/
def outside (s : TimerQueue) : List ℕ := (s.batch.elim [] fun b => b.expired.map Prod.snd) ++ s.waiting

/-- A timerfd that was set goes off by `due`, or as soon as it can. -/
def InTime (armed : Option (ℤ × ℤ)) (due : ℤ) : Prop := ∃ w, armed = some w ∧ w.2 ≤ max due (w.1 + 100)

theorem InTime.mono {armed : Option (ℤ × ℤ)} {due due' : ℤ} (h : InTime armed due) (hle : due ≤ due') :
    InTime armed due' := by
  obtain ⟨w, hw, hin⟩ := h
  exact ⟨w, hw, by omega⟩

theorem inTime_set (due now : ℤ) : InTime (some (now, now + howMuchTimeFromNow due now)) due := by
  refine ⟨_, rfl, ?_⟩
  unfold howMuchTimeFromNow
  dsimp only
  split <;> omega

structure Sound (s : TimerQueue) : Prop where
  core : Core s.outside [] s
  clock : ∀ b, s.batch = some b → 0 < b.now
  todo : ∀ b, s.batch = some b → b.todo <:+ b.expired
  expired : ∀ b, s.batch = some b → ∀ e ∈ b.expired, e.1 ≤ b.now ∧ ∀ timer, s.heap e.2 = some timer → timer.expiration = e.1
  /-- The timerfd goes off in time. During the callbacks that is said of what they add for now or
  earlier; `reset` sees to the rest. -/
  covered : ∀ e ∈ s.timers, (∀ b, s.batch = some b → e.1 ≤ b.now) → InTime s.armed e.1
  punctual : ∀ f ∈ s.ran, f.expiration ≤ f.now

/-- How often the callback of the timer with the number `q` was run, and is going to be in this batch. -/
def score (s : TimerQueue) (q : ℕ) : ℕ :=
  s.ran.countP (·.sequence = q) + (s.batch.elim [] fun b => b.todo).countP fun e => s.sequenceAt e.2 = q

/-- No timer with the number `q` is there, or only one that `reset` will delete. -/
structure Cancelled (q : ℕ) (s : TimerQueue) : Prop where
  created : q ≤ s.numCreated
  doomed : ∀ a timer, s.heap a = some timer → timer.sequence = q →
    (a, q) ∈ s.cancelingTimers ∧ ∃ b, s.batch = some b ∧ a ∈ b.expired.map Prod.snd

/-- What a step does: it keeps the queue sound, and nothing cancelled is run beyond its score. -/
structure Good (s t : TimerQueue) : Prop where
  sound : Sound t
  cancelled : ∀ q, Cancelled q s → Cancelled q t ∧ t.score q ≤ s.score q

theorem mem_outside {b : Batch} (hb : s.batch = some b) {e : ℤ × ℕ} (he : e ∈ b.expired) :
    e.2 ∈ s.outside := by
  rw [outside, hb]
  exact List.mem_append_left _ (List.mem_map_of_mem (f := Prod.snd) he)

theorem Sound.exists_heap (h : Sound s) {b : Batch} (hb : s.batch = some b) {e : ℤ × ℕ} (he : e ∈ b.expired) :
    ∃ timer, s.heap e.2 = some timer :=
  h.core.exists_heap (List.mem_append_right _ (mem_outside hb he))

/-- The same numbers at the timers still to be run, and the same runs. -/
theorem score_congr (hran : t.ran = s.ran) (hbatch : t.batch = s.batch)
    (hheap : ∀ b, s.batch = some b → ∀ e ∈ b.todo, t.heap e.2 = s.heap e.2) : t.score q = s.score q := by
  rw [score, score, hran, hbatch]
  congr 1
  cases hb : s.batch with
  | none => rfl
  | some b =>
    refine List.countP_congr fun e he => ?_
    rw [sequenceAt, sequenceAt, hheap b hb e he]

section Steps

theorem addTimer_good (h : Sound s) {a : ℕ} {expiration interval : ℤ} {repeats : Bool} (ha : s.heap a = none)
    (hint : repeats = true → 0 ≤ interval) : Good s (s.addTimer a expiration interval repeats) := by
  have hout : (a :: s.outside).Perm (s.addTimer a expiration interval repeats).outside := by
    simp only [outside, addTimer, ← List.append_assoc]
    exact (List.perm_append_singleton a _).symm
  have hbatch : ∀ b, s.batch = some b → ∀ e ∈ b.expired,
      (s.addTimer a expiration interval repeats).heap e.2 = s.heap e.2 := fun b hb e he =>
    h.core.addTimer_heap_of_mem ha (List.mem_append_right _ (mem_outside hb he))
  refine ⟨⟨(h.core.addTimer ha hint).perm hout, h.clock, h.todo, fun b hb e he => ⟨(h.expired b hb e he).1, ?_⟩,
    h.covered, h.punctual⟩, fun q hq => ⟨⟨hq.created.trans (Nat.le_succ _), fun b timer hb hseq => ?_⟩, ?_⟩⟩
  · intro timer htimer
    rw [hbatch b hb e he] at htimer
    exact (h.expired b hb e he).2 timer htimer
  · obtain ⟨-, rfl⟩ | hb := addTimer_heap hb
    · have := hq.created
      simp only at hseq
      omega
    · exact hq.doomed b timer hb hseq
  · have hscore : (s.addTimer a expiration interval repeats).score q = s.score q :=
      score_congr rfl rfl fun b hb e he => hbatch b hb e ((h.todo b hb).subset he)
    exact hscore.le

theorem addTimerReturn_good (h : Sound s) {id : ℕ × ℕ} (hid : s.Lives id) :
    ∃ t, s.addTimerReturn id = .ok t ∧ t.issued = s.issued ++ [id] ∧ Good s t := by
  obtain ⟨timer, htimer, hseq⟩ := hid
  refine ⟨_, by rw [addTimerReturn, deref_of htimer, ok_bind], by rw [hseq], ?_⟩
  exact ⟨⟨{ h.core with active := h.core.active }, h.clock, h.todo, h.expired, h.covered, h.punctual⟩,
    fun q hq => ⟨⟨hq.created, hq.doomed⟩, (score_congr rfl rfl fun _ _ _ _ => rfl).le⟩⟩

theorem first_le {e : ℤ × ℕ} {l : List (ℤ × ℕ)} (hsorted : s.timers.Pairwise fun x y => x.1 ≤ y.1)
    (htimers : s.timers = e :: l) : ∀ x ∈ s.timers, e.1 ≤ x.1 := by
  rw [htimers] at hsorted ⊢
  intro x hx
  obtain rfl | hx := List.mem_cons.mp hx
  · exact le_rfl
  · exact (List.pairwise_cons.mp hsorted).1 x hx

/-- A timer that comes to the front sets the timerfd. -/
theorem covered_insert (e : ℤ × ℕ) (now : ℤ) (limit : ℤ → Prop) (hdown : ∀ x y, x ≤ y → limit y → limit x)
    (hsorted : s.timers.Pairwise fun x y => x.1 ≤ y.1)
    (hs : ∀ x ∈ s.timers, limit x.1 → InTime s.armed x.1) :
    ∀ x ∈ s.timers.orderedInsert before e, limit x.1 →
      InTime (if s.isEarliest e.1 then some (now, now + howMuchTimeFromNow e.1 now) else s.armed) x.1 := by
  intro x hx hlimit
  rw [List.mem_orderedInsert] at hx
  cases htimers : s.timers with
  | nil =>
    obtain rfl : x = e := by simpa [htimers] using hx
    rw [isEarliest, htimers, if_pos rfl]
    exact inTime_set x.1 now
  | cons f l =>
    have hfirst := first_le hsorted htimers
    by_cases hlt : e.1 < f.1
    · have hearliest : s.isEarliest e.1 = true := by simpa [isEarliest, htimers] using hlt
      rw [if_pos hearliest]
      refine (inTime_set e.1 now).mono ?_
      obtain rfl | hx := hx
      · exact le_rfl
      · exact hlt.le.trans (hfirst x hx)
    · have hearliest : ¬ s.isEarliest e.1 = true := by simpa [isEarliest, htimers] using hlt
      have hfx : f.1 ≤ x.1 := by
        obtain rfl | hx := hx
        · omega
        · exact hfirst x hx
      rw [if_neg hearliest]
      exact (hs f (by simp [htimers]) (hdown _ _ hfx hlimit)).mono hfx

theorem addTimerInLoop_good (h : Sound s) {a : ℕ} (ha : a ∈ s.waiting) (now : ℤ) :
    ∃ t, s.addTimerInLoop a now = .ok t ∧ t.issued = s.issued ∧ Good s t := by
  have hout : s.outside.Perm (a :: { s with waiting := s.waiting.erase a }.outside) :=
    ((List.perm_cons_erase ha).append_left _).trans List.perm_middle
  have hcore : Core (a :: { s with waiting := s.waiting.erase a }.outside) [] { s with waiting := s.waiting.erase a } :=
    { h.core.perm hout with active := h.core.active }
  obtain ⟨timer, htimer⟩ := hcore.exists_heap (List.mem_append_right _ List.mem_cons_self)
  obtain ⟨t, ht, hcore', rfl⟩ := insert_ok hcore htimer
  have hcovered := covered_insert (timer.expiration, a) now (fun x => ∀ b, s.batch = some b → x ≤ b.now)
    (fun x y hxy hy b hb => hxy.trans (hy b hb)) h.core.sorted h.covered
  have hgood : ∀ armed', armed' = (if s.isEarliest timer.expiration then
        some (now, now + howMuchTimeFromNow timer.expiration now) else s.armed) →
      Good s { s with
        waiting := s.waiting.erase a
        timers := s.timers.orderedInsert before (timer.expiration, a)
        activeTimers := (a, timer.sequence) :: s.activeTimers
        armed := armed' } := by
    rintro armed' rfl
    exact ⟨⟨{ hcore' with active := hcore'.active }, h.clock, h.todo, h.expired, hcovered, h.punctual⟩,
      fun q hq => ⟨⟨hq.created, hq.doomed⟩, (score_congr rfl rfl fun _ _ _ _ => rfl).le⟩⟩
  rw [addTimerInLoop, ht, ok_bind]
  dsimp only
  split
  · rename_i hearliest
    have hearliest' : s.isEarliest timer.expiration = true := hearliest
    have hderef : { s with
        waiting := s.waiting.erase a
        timers := s.timers.orderedInsert before (timer.expiration, a)
        activeTimers := (a, timer.sequence) :: s.activeTimers }.deref a = .ok timer := deref_of htimer
    rw [hderef, ok_bind]
    exact ⟨_, rfl, rfl, hgood _ (by rw [if_pos hearliest'])⟩
  · rename_i hearliest
    have hearliest' : ¬ s.isEarliest timer.expiration = true := hearliest
    exact ⟨_, rfl, rfl, hgood _ (by rw [if_neg hearliest'])⟩

theorem cancelInLoop_good (h : Sound s) (id : ℕ × ℕ) :
    ∃ t, s.cancelInLoop id = .ok t ∧ t.issued = s.issued ∧ Good s t ∧ ∀ q, t.score q = s.score q := by
  obtain ⟨t, ht, hcore, ⟨e, he, -, rfl⟩ | ⟨-, rfl⟩⟩ := cancelInLoop_ok h.core id
  · -- a timer of the queue is none of the batch
    have hbatch : ∀ b, s.batch = some b → ∀ e' ∈ b.expired, (s.free e.2).heap e'.2 = s.heap e'.2 := by
      intro b hb e' he'
      refine Function.update_of_ne (fun heq => ?_) _ _
      exact (List.nodup_append.mp h.core.nodup).2.2 e.2 (List.mem_map_of_mem (f := Prod.snd) he) e'.2
        (mem_outside hb he') heq.symm
    have hheap : ∀ b timer, (s.free e.2).heap b = some timer → s.heap b = some timer := by
      intro b timer hb
      by_cases hbe : b = e.2
      · subst hbe
        simp [free] at hb
      · exact (Function.update_of_ne hbe _ _).symm.trans hb
    have hscore : ∀ q, { s.free e.2 with
        timers := s.timers.erase e
        activeTimers := s.activeTimers.erase id }.score q = s.score q := by
      intro q
      refine score_congr ?_ ?_ fun b hb e' he' => hbatch b hb e' ((h.todo b hb).subset he')
      · rfl
      · rfl
    refine ⟨_, ht, rfl, ⟨⟨hcore, h.clock, h.todo, fun b hb e' he' => ⟨(h.expired b hb e' he').1, ?_⟩,
      fun e' he' => h.covered e' (List.mem_of_mem_erase he'), h.punctual⟩, fun q hq =>
      ⟨⟨hq.created, fun b timer hb => hq.doomed b timer (hheap b timer hb)⟩, (hscore q).le⟩⟩, hscore⟩
    intro timer htimer
    exact (h.expired b hb e' he').2 timer (hheap _ _ htimer)
  · have hscore : ∀ q, { s with cancelingTimers :=
        if s.batch.isSome then s.cancelingTimers.insert id else s.cancelingTimers }.score q = s.score q :=
      fun q => score_congr (s := s) rfl rfl fun _ _ _ _ => rfl
    refine ⟨_, ht, rfl, ⟨⟨hcore, h.clock, h.todo, h.expired, h.covered, h.punctual⟩,
      fun q hq => ⟨⟨hq.created, fun b timer hb hseq => ?_⟩, (hscore q).le⟩⟩, hscore⟩
    obtain ⟨hmem, hbatch⟩ := hq.doomed b timer hb hseq
    refine ⟨?_, hbatch⟩
    dsimp only
    split
    · exact List.mem_insert_of_mem hmem
    · exact hmem

/-- What is left in the queue is not due. -/
theorem Sound.rest_later (h : Sound s) {now : ℤ} {e : ℤ × ℕ} (he : e ∈ s.timers.dropWhile (·.1 ≤ now)) :
    now < e.1 := by
  have hsorted := h.core.sorted.sublist (List.dropWhile_sublist fun e : ℤ × ℕ => decide (e.1 ≤ now))
  have hfirst := List.head?_dropWhile_not (fun e : ℤ × ℕ => decide (e.1 ≤ now)) s.timers
  cases hdrop : s.timers.dropWhile (fun e : ℤ × ℕ => decide (e.1 ≤ now)) with
  | nil => simp [hdrop] at he
  | cons f l =>
    rw [hdrop] at hsorted hfirst he
    have hf : now < f.1 := by simpa using hfirst
    obtain rfl | he := List.mem_cons.mp he
    · exact hf
    · exact hf.trans_le ((List.pairwise_cons.mp hsorted).1 e he)

/-- A timer that is cancelled and yet to be run is in the batch. -/
theorem Cancelled.none_outside (hq : Cancelled q s) (hbatch : s.batch = none) {a : ℕ} {timer : Timer}
    (ha : s.heap a = some timer) : timer.sequence ≠ q := by
  intro hseq
  obtain ⟨-, b, hb, -⟩ := hq.doomed a timer ha hseq
  rw [hbatch] at hb
  cases hb

theorem handleRead_good (h : Sound s) {now : ℤ} (hbatch : s.batch = none) (hnow : 0 < now) :
    ∃ t, s.handleRead now = .ok t ∧ t.issued = s.issued ∧ Good s t := by
  have hout : s.outside = s.waiting := by rw [outside, hbatch]; rfl
  have hcore : Core s.waiting [] { s with armed := none } := { hout ▸ h.core with active := h.core.active }
  obtain ⟨t, ht, hcore', hframe⟩ := getExpired_ok hcore now
  refine ⟨_, by rw [handleRead, ht, ok_bind], by rw [hframe], ?_⟩
  rw [hframe] at hcore' ⊢
  have hexpired : ∀ e ∈ s.timers.takeWhile (·.1 ≤ now), e.1 ≤ now ∧ e ∈ s.timers := fun e he =>
    ⟨by simpa using List.all_eq_true.mp List.all_takeWhile e he, (List.takeWhile_sublist _).subset he⟩
  refine ⟨⟨{ hcore' with active := hcore'.active }, ?_, ?_, ?_, ?_, h.punctual⟩, fun q hq => ⟨⟨hq.created, ?_⟩, ?_⟩⟩
  · rintro b ⟨⟩
    exact hnow
  · rintro b ⟨⟩
    exact List.suffix_refl _
  · rintro b ⟨⟩ e he
    exact ⟨(hexpired e he).1, h.core.due e (hexpired e he).2⟩
  · intro e he hlimit
    have := h.rest_later he
    have := hlimit _ rfl
    dsimp only at this
    omega
  · exact fun a timer ha hseq => absurd hseq (hq.none_outside hbatch ha)
  · -- none of those that have expired has the number
    have hnone : (s.timers.takeWhile (·.1 ≤ now)).countP (fun e => s.sequenceAt e.2 = q) = 0 := by
      rw [List.countP_eq_zero]
      intro e he hseq
      obtain ⟨timer, htimer⟩ := h.core.exists_heap
        (List.mem_append_left s.outside (List.mem_map_of_mem (f := Prod.snd) (hexpired e he).2))
      rw [sequenceAt_of htimer, decide_eq_true_eq] at hseq
      exact hq.none_outside hbatch htimer hseq
    show s.ran.countP _ + (s.timers.takeWhile (·.1 ≤ now)).countP (fun e => s.sequenceAt e.2 = q) ≤ _
    rw [hnone]
    exact Nat.le_add_right _ _

theorem run_good (h : Sound s) {b : Batch} (hb : s.batch = some b) (htodo : b.todo ≠ []) :
    ∃ t, s.run = .ok t ∧ t.issued = s.issued ∧ Good s t := by
  obtain ⟨now, expired, todo⟩ := b
  cases todo with
  | nil => exact absurd rfl htodo
  | cons e todo =>
    have he : e ∈ expired := (h.todo _ hb).subset List.mem_cons_self
    obtain ⟨timer, htimer⟩ := h.exists_heap hb he
    have hrun : s.run = .ok { s with
        batch := some { now, expired, todo }
        ran := s.ran ++ [⟨timer.sequence, timer.expiration, now⟩] } := by
      rw [run]
      split
      · rename_i hb'
        cases hb.symm.trans hb'
        rw [deref_of htimer, ok_bind]
      · rename_i hnone
        exact absurd hb (hnone _ _ _ _)
    refine ⟨_, hrun, rfl, ⟨⟨?_, ?_, ?_, ?_, ?_, ?_⟩, fun q hq => ⟨⟨hq.created, ?_⟩, ?_⟩⟩⟩
    · have hcore := h.core
      rw [outside, hb] at hcore
      exact { hcore with active := hcore.active }
    · rintro b ⟨⟩
      have hclock := h.clock _ hb
      exact hclock
    · rintro b ⟨⟩
      exact (List.suffix_cons e todo).trans (h.todo _ hb)
    · rintro b ⟨⟩
      have hexpired := h.expired _ hb
      exact hexpired
    · intro x hx hlimit
      refine h.covered x hx fun b hb' => ?_
      cases hb.symm.trans hb'
      have hle := hlimit _ rfl
      exact hle
    · intro f hf
      obtain hf | hf := List.mem_append.mp hf
      · exact h.punctual f hf
      · rw [List.mem_singleton.mp hf]
        have hdue := h.expired _ hb e he
        exact (hdue.2 timer htimer).trans_le hdue.1
    · intro a timer' ha hseq
      obtain ⟨hmem, b, hb', hab⟩ := hq.doomed a timer' ha hseq
      cases hb.symm.trans hb'
      exact ⟨hmem, _, rfl, hab⟩
    · -- one more was run, and one less is to be
      rw [score, score, hb]
      have hseq : s.sequenceAt e.2 = timer.sequence := sequenceAt_of htimer
      simp only [List.countP_append, List.countP_cons, List.countP_nil, Option.elim, hseq]
      show _ + todo.countP (fun e => s.sequenceAt e.2 = q) ≤ _
      omega

/-- A cancelled timer of the batch does not outlive it. -/
theorem Cancelled.restarted (hq : Cancelled q s) {b : Batch} {now : ℤ} (hb : s.batch = some b)
    (hr : Restarted now b.expired { s with batch := none } t) : Cancelled q t ∧ t.score q ≤ s.score q := by
  have hcreated : t.numCreated = s.numCreated := by rw [hr.frame]
  have hbatch : t.batch = none := by rw [hr.frame]
  have hran : t.ran = s.ran := by rw [hr.frame]
  refine ⟨⟨hcreated ▸ hq.created, fun a timer ha hseq => ?_⟩, ?_⟩
  · obtain ⟨timer', ha', hseq'⟩ := hr.kept a timer ha
    obtain ⟨hmem, b', hb', hab⟩ := hq.doomed a timer' ha' (hseq'.trans hseq)
    cases hb.symm.trans hb'
    obtain ⟨e, he, rfl⟩ := List.mem_map.mp hab
    have hid : s.idOf e = (e.2, q) := by rw [idOf, sequenceAt_of (s := s) ha', hseq', hseq]
    rw [hr.cancelled e he (hid ▸ hmem)] at ha
    cases ha
  · rw [score, score, hran, hbatch]
    exact Nat.le_add_right _ _

theorem finish_good (h : Sound s) {b : Batch} (hb : s.batch = some b) (later : ℤ) :
    ∃ t, s.finish later = .ok t ∧ t.issued = s.issued ∧ Good s t := by
  have hcore : Core (b.expired.map Prod.snd ++ s.waiting) [] { s with batch := none } := by
    have hcore := h.core
    rw [outside, hb] at hcore
    exact { hcore with active := hcore.active }
  obtain ⟨t, ht, hcore', hr⟩ := resetAll_ok b.now hcore
  have hwaiting : t.waiting = s.waiting := by rw [hr.frame]
  have hbatch : t.batch = none := by rw [hr.frame]
  have hran : t.ran = s.ran := by rw [hr.frame]
  have harmed : t.armed = s.armed := by rw [hr.frame]
  have hissued : t.issued = s.issued := by rw [hr.frame]
  have hpast : ∀ e ∈ t.timers, e.1 ≤ 0 → InTime t.armed e.1 := by
    intro e he hle
    have hclock := h.clock b hb
    obtain he | he := hr.later e he
    · rw [harmed]
      refine h.covered e he fun b' hb' => ?_
      cases hb.symm.trans hb'
      omega
    · omega
  have hgood : ∀ armed', (∀ e ∈ t.timers, InTime armed' e.1) → Good s { t with armed := armed' } := by
    intro armed' hcovered
    have hout : { t with armed := armed' }.outside = s.waiting := by rw [outside, hbatch, hwaiting]; rfl
    refine ⟨⟨?_, ?_, ?_, ?_, fun e he _ => hcovered e he, hran ▸ h.punctual⟩, fun q hq => ?_⟩
    · rw [hout]
      exact { hcore' with active := hcore'.active }
    · rintro b' hb'
      cases hbatch.symm.trans hb'
    · rintro b' hb'
      cases hbatch.symm.trans hb'
    · rintro b' hb'
      cases hbatch.symm.trans hb'
    · obtain ⟨hcancelled, hscore⟩ := hq.restarted hb hr
      exact ⟨⟨hcancelled.created, hcancelled.doomed⟩, hscore⟩
  rw [finish, hb]
  dsimp only
  rw [reset, ht, ok_bind]
  split
  · rename_i htimers
    exact ⟨t, rfl, hissued, hgood t.armed (by simp [htimers])⟩
  · rename_i e l htimers
    have he : e ∈ t.timers := htimers ▸ List.mem_cons_self
    have hfirst := first_le hcore'.sorted htimers
    obtain ⟨timer, htimer⟩ := hcore'.exists_heap (List.mem_append_left s.waiting (List.mem_map_of_mem (f := Prod.snd) he))
    have hdue : timer.expiration = e.1 := hcore'.due e he timer htimer
    rw [deref_of htimer, ok_bind, hdue]
    by_cases hpos : 0 < e.1
    · rw [if_pos hpos]
      exact ⟨_, rfl, hissued, hgood _ fun x hx => (inTime_set e.1 later).mono (hfirst x hx)⟩
    · -- it was due before the epoch, and set the timerfd when it came
      rw [if_neg hpos]
      exact ⟨t, rfl, hissued, hgood t.armed fun x hx => (hpast e he (by omega)).mono (hfirst x hx)⟩

/-- The timer whose `TimerId` a call returns. -/
def Event.returned : Event → List (ℕ × ℕ)
  | .addTimerReturn id => [id]
  | _ => []

theorem step_good (h : Sound s) {e : Event} (he : Allowed s e) :
    ∃ t, s.step e = .ok t ∧ t.issued = s.issued ++ e.returned ∧ Good s t := by
  obtain ⟨hoffered, htimely⟩ := he
  cases e with
  | addTimer a expiration interval repeats =>
    exact ⟨_, rfl, (List.append_nil _).symm, addTimer_good h hoffered.1 hoffered.2⟩
  | addTimerReturn id => exact addTimerReturn_good h htimely
  | addTimerInLoop a now =>
    obtain ⟨t, ht, hissued, hgood⟩ := addTimerInLoop_good h hoffered now
    exact ⟨t, ht, hissued.trans (List.append_nil _).symm, hgood⟩
  | cancelInLoop id =>
    obtain ⟨t, ht, hissued, hgood, -⟩ := cancelInLoop_good h id
    exact ⟨t, ht, hissued.trans (List.append_nil _).symm, hgood⟩
  | handleRead now =>
    obtain ⟨t, ht, hissued, hgood⟩ := handleRead_good h hoffered.1 hoffered.2
    exact ⟨t, ht, hissued.trans (List.append_nil _).symm, hgood⟩
  | run =>
    obtain ⟨b, hb, htodo⟩ := hoffered
    obtain ⟨t, ht, hissued, hgood⟩ := run_good h hb htodo
    exact ⟨t, ht, hissued.trans (List.append_nil _).symm, hgood⟩
  | finish later =>
    obtain ⟨b, hb, -⟩ := hoffered
    obtain ⟨t, ht, hissued, hgood⟩ := finish_good h hb later
    exact ⟨t, ht, hissued.trans (List.append_nil _).symm, hgood⟩

end Steps

theorem sound_empty : Sound {} where
  core :=
    { sorted := List.Pairwise.nil
      nodup := List.nodup_nil
      live := fun a => by simp [outside]
      due := by simp
      active := List.Perm.refl _
      numbered := by simp
      distinct := by simp
      interval := by simp }
  clock := by simp
  todo := by simp
  expired := by simp
  covered := by simp
  punctual := by simp

theorem run_sound {es : List Event} (hes : Along step Allowed s es) (h : Sound s) :
    ∃ t, runAll step s es = .ok t ∧ Sound t :=
  hes.runAll_ok (fun _ _ h he =>
    let ⟨t, ht, _, hgood⟩ := step_good h he
    ⟨t, ht, hgood.sound⟩) h

theorem run_issued {es : List Event} (hes : Along step Allowed s es) (h : Sound s) :
    ∃ t, runAll step s es = .ok t ∧ Sound t ∧ t.issued = s.issued ++ es.flatMap Event.returned := by
  induction es generalizing s with
  | nil => exact ⟨s, rfl, h, (List.append_nil _).symm⟩
  | cons e es ih =>
    obtain ⟨t, ht, hissued, hgood⟩ := step_good h (hes [] e es s rfl rfl)
    obtain ⟨u, hu, hsound, hissued'⟩ := ih ((along_cons ht).mp hes).2 hgood.sound
    refine ⟨u, (runAll_cons ht).trans hu, hsound, ?_⟩
    rw [hissued', hissued, List.append_assoc, List.flatMap_cons]

/-- A run never reads or deletes a timer that is gone, as long as threads that add one are back
before it is, and leaks none: each is in the queue, in the batch that is being run or on its way
to the loop, and in one of these places only. What `addTimer` returns names the timer that it
made. No callback is run before it is due. And whenever `handleRead` is not under way, the
timerfd goes off by the time the first timer is due, or as soon as it could be set to. -/
theorem timers_never_dangle (es : List Event) (hes : Along step Allowed {} es) :
    ∃ t, runAll step {} es = .ok t ∧ t.timers.length = t.activeTimers.length ∧
      (t.timers.map Prod.snd ++ t.outside).Nodup ∧ (∀ a, t.heap a ≠ none ↔ a ∈ t.timers.map Prod.snd ++ t.outside) ∧
      t.issued = es.flatMap Event.returned ∧ (∀ f ∈ t.ran, f.expiration ≤ f.now) ∧
      (t.batch = none → ∀ e ∈ t.timers, InTime t.armed e.1) := by
  obtain ⟨t, ht, h, hissued⟩ := run_issued hes sound_empty
  refine ⟨t, ht, h.core.size, h.core.nodup, h.core.live, hissued, h.punctual, fun hbatch e he =>
    h.covered e he fun b hb => ?_⟩
  rw [hbatch] at hb
  cases hb

/-- A timer that goes off twice, and cancels itself the second time. -/
def ticks : List Event :=
  [.addTimer 7 100 50 true, .addTimerInLoop 7 20, .addTimerReturn (7, 1), .handleRead 120, .run, .finish 125,
    .handleRead 225, .run]

theorem ticks_allowed : Along step Allowed {} (ticks ++ .cancelInLoop (7, 1) :: [.finish 230]) := by
  refine (along_cons rfl).mpr ⟨⟨⟨rfl, by decide⟩, trivial⟩, (along_cons rfl).mpr ⟨⟨?_, trivial⟩, ?_⟩⟩
  · exact List.mem_singleton_self 7
  refine (along_cons rfl).mpr ⟨⟨List.mem_singleton_self (7, 1), _, rfl, rfl⟩, ?_⟩
  refine (along_cons rfl).mpr ⟨⟨⟨rfl, by decide⟩, trivial⟩, ?_⟩
  refine (along_cons rfl).mpr ⟨⟨⟨_, rfl, nofun⟩, trivial⟩, (along_cons rfl).mpr ⟨⟨⟨_, rfl, rfl⟩, trivial⟩, ?_⟩⟩
  refine (along_cons rfl).mpr ⟨⟨⟨rfl, by decide⟩, trivial⟩, (along_cons rfl).mpr ⟨⟨⟨_, rfl, nofun⟩, trivial⟩, ?_⟩⟩
  exact (along_cons rfl).mpr ⟨⟨trivial, trivial⟩, (along_cons rfl).mpr ⟨⟨⟨_, rfl, rfl⟩, trivial⟩, along_nil⟩⟩

theorem timers_never_dangle_ticks :
    ∃ t, runAll step {} (ticks ++ .cancelInLoop (7, 1) :: [.finish 230]) = .ok t ∧ t.heap 7 = none ∧
      t.ran = [⟨1, 100, 120⟩, ⟨1, 170, 225⟩] ∧ t.issued = [(7, 1)] ∧ ∀ f ∈ t.ran, f.expiration ≤ f.now := by
  obtain ⟨t, ht, -, -, -, hissued, hran, -⟩ := timers_never_dangle _ ticks_allowed
  cases ht
  exact ⟨_, rfl, rfl, rfl, hissued, hran⟩

/-- The timer is run and deleted before the thread that added it reads its number. -/
example :
    runAll step {} [.addTimer 7 100 0 false, .addTimerInLoop 7 20, .handleRead 120, .run, .finish 125,
      .addTimerReturn (7, 1)] = .error .dangling := rfl

theorem Sound.countP_todo_le (h : Sound s) :
    ((s.batch.elim [] fun b => b.todo).countP fun e => s.sequenceAt e.2 = q) ≤ 1 := by
  cases hb : s.batch with
  | none => simp
  | some b =>
    have haddress : (b.todo.map Prod.snd).Nodup := by
      have hout := (List.nodup_append.mp h.core.nodup).2.1
      rw [outside, hb] at hout
      exact ((List.nodup_append.mp hout).1).sublist ((h.todo b hb).sublist.map Prod.snd)
    have hnodup : ((b.todo.map Prod.snd).map s.sequenceAt).Nodup := by
      refine haddress.map_on fun x hx y hy heq => ?_
      obtain ⟨e, he, rfl⟩ := List.mem_map.mp hx
      obtain ⟨e', he', rfl⟩ := List.mem_map.mp hy
      obtain ⟨timer, htimer⟩ := h.exists_heap hb ((h.todo b hb).subset he)
      obtain ⟨timer', htimer'⟩ := h.exists_heap hb ((h.todo b hb).subset he')
      rw [sequenceAt_of htimer, sequenceAt_of htimer'] at heq
      exact h.core.distinct _ _ _ _ htimer htimer' heq
    have hcount := List.nodup_iff_count_le_one.mp hnodup q
    rw [List.count, List.countP_map, List.countP_map] at hcount
    refine le_trans (le_of_eq (List.countP_congr fun e _ => ?_)) hcount
    simp

theorem cancelInLoop_cancels (h : Sound s) {id : ℕ × ℕ} (hcreated : id.2 ≤ s.numCreated)
    (hown : ∀ a timer, s.heap a = some timer → timer.sequence = id.2 → a = id.1 ∧ a ∉ s.waiting)
    (ht : s.cancelInLoop id = .ok t) : Cancelled id.2 t := by
  obtain ⟨t', ht', -, ⟨e, he, rfl, rfl⟩ | ⟨hnone, rfl⟩⟩ := cancelInLoop_ok h.core id <;> cases ht'.symm.trans ht
  · refine ⟨hcreated, fun a timer ha hseq => ?_⟩
    by_cases hae : a = e.2
    · subst hae
      simp [free] at ha
    · have ha' : s.heap a = some timer := (Function.update_of_ne hae _ _).symm.trans ha
      exact absurd (hown a timer ha' hseq).1 hae
  · refine ⟨hcreated, fun a timer ha hseq => ?_⟩
    obtain ⟨rfl, hwaiting⟩ := hown a timer ha hseq
    have hplace := (h.core.live id.1).mp (Option.ne_none_iff_exists'.mpr ⟨timer, ha⟩)
    obtain hplace | hplace := List.mem_append.mp hplace
    · obtain ⟨e, he, heq⟩ := List.mem_map.mp hplace
      refine absurd ?_ (hnone e he)
      rw [idOf, heq, sequenceAt_of (s := s) ha, hseq]
    · rw [outside] at hplace
      obtain hplace | hplace := List.mem_append.mp hplace
      · cases hb : s.batch with
        | none => simp [hb] at hplace
        | some b => exact ⟨by simp, b, rfl, by simpa [hb] using hplace⟩
      · exact absurd hplace hwaiting

/-- Once a timer of the queue is cancelled its callback is not run again, except that one that is
about to be run in the current batch is still run. Its address may well be used again. -/
theorem cancelled_runs_no_more (pre post : List Event) (id : ℕ × ℕ)
    (hes : Along step Allowed {} (pre ++ .cancelInLoop id :: post)) (hs : runAll step {} pre = .ok s)
    (hcreated : id.2 ≤ s.numCreated)
    (hown : ∀ a timer, s.heap a = some timer → timer.sequence = id.2 → a = id.1 ∧ a ∉ s.waiting) :
    ∃ u, runAll step {} (pre ++ .cancelInLoop id :: post) = .ok u ∧
      u.ran.countP (·.sequence = id.2) ≤ s.ran.countP (·.sequence = id.2) + 1 ∧
      ((∀ b, s.batch = some b → ∀ e ∈ b.todo, s.sequenceAt e.2 ≠ id.2) →
        u.ran.countP (·.sequence = id.2) ≤ s.ran.countP (·.sequence = id.2)) := by
  have hsound : Sound s := by
    obtain ⟨s', hs', h⟩ := run_sound hes.of_append sound_empty
    cases hs'.symm.trans hs
    exact h
  obtain ⟨t, ht, -, hgood, hscore⟩ := cancelInLoop_good hsound id
  have hstep : step s (.cancelInLoop id) = .ok t := ht
  obtain ⟨u, hu, -, -, hle⟩ := ((along_cons hstep).mp (hes.append_right hs)).2.runAll_ok
    (I := fun u => Sound u ∧ Cancelled id.2 u ∧ u.score id.2 ≤ t.score id.2)
    (fun v e h he =>
      let ⟨w, hw, _, hgood⟩ := step_good h.1 he
      ⟨w, hw, hgood.sound, (hgood.cancelled id.2 h.2.1).1, (hgood.cancelled id.2 h.2.1).2.trans h.2.2⟩)
    ⟨hgood.sound, cancelInLoop_cancels hsound hcreated hown ht, le_rfl⟩
  rw [hscore id.2, score, score] at hle
  refine ⟨u, by rw [runAll_append hs, runAll_cons hstep, hu], ?_, fun hnone => ?_⟩
  · have := hsound.countP_todo_le (q := id.2)
    omega
  · have hzero : ((s.batch.elim [] fun b => b.todo).countP fun e => s.sequenceAt e.2 = id.2) = 0 := by
      rw [List.countP_eq_zero]
      intro e he
      cases hb : s.batch with
      | none => simp [hb] at he
      | some b => simpa using hnone b hb e (by simpa [hb] using he)
    omega

theorem cancelled_runs_no_more_ticks :
    ∃ u, runAll step {} (ticks ++ .cancelInLoop (7, 1) :: [.finish 230]) = .ok u ∧
      u.ran.countP (·.sequence = 1) ≤ 2 := by
  obtain ⟨u, hu, -, hle⟩ := cancelled_runs_no_more ticks [.finish 230] (7, 1) ticks_allowed rfl (by decide) (by
    intro a timer ha _
    refine ⟨?_, List.not_mem_nil⟩
    by_contra hne
    have ha' : Function.update (Function.update (fun _ => none) 7 (some ⟨100, 50, true, 1⟩)) 7
        (some ⟨170, 50, true, 1⟩) a = some timer := ha
    rw [Function.update_of_ne hne, Function.update_of_ne hne] at ha'
    cases ha')
  refine ⟨u, hu, hle ?_⟩
  rintro b ⟨⟩ e he
  cases he

end CppBase.Muduo.TimerQueue
