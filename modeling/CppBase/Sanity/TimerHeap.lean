import CppBase.Spec.TimerQueue

/-! Who owns the timers of a `TimerQueue`, and what its functions do to that. -/

namespace CppBase.Muduo.TimerQueue

open CppBase.Lib

variable {s t : TimerQueue} {a : ℕ} {timer : Timer} {others others' : List ℕ} {extra : List (ℤ × ℕ)}

@[simp] theorem check_of {p : Prop} [Decidable p] (h : p) : check p = .ok () := if_pos h

@[simp] theorem deref_of (h : s.heap a = some timer) : s.deref a = .ok timer := by
  rw [deref, h]

def sequenceAt (s : TimerQueue) (a : ℕ) : ℕ := ((s.heap a).map Timer.sequence).getD 0

def idOf (s : TimerQueue) (e : ℤ × ℕ) : ℕ × ℕ := (e.2, s.sequenceAt e.2)

/-- The timers of the queue are sorted, each at the time it is due; they and the `others` are all
there are on the heap, each once; no two have the same number. The entries `extra` have been
taken out of `timers` and not out of `activeTimers`. -/
structure Core (others : List ℕ) (extra : List (ℤ × ℕ)) (s : TimerQueue) : Prop where
  sorted : s.timers.Pairwise fun x y => x.1 ≤ y.1
  nodup : (s.timers.map Prod.snd ++ others).Nodup
  live : ∀ a, s.heap a ≠ none ↔ a ∈ s.timers.map Prod.snd ++ others
  due : ∀ e ∈ s.timers, ∀ timer, s.heap e.2 = some timer → timer.expiration = e.1
  active : s.activeTimers.Perm ((extra ++ s.timers).map s.idOf)
  numbered : ∀ a timer, s.heap a = some timer → timer.sequence ≤ s.numCreated
  distinct : ∀ a a' timer timer', s.heap a = some timer → s.heap a' = some timer' →
    timer.sequence = timer'.sequence → a = a'
  interval : ∀ a timer, s.heap a = some timer → timer.repeats = true → 0 ≤ timer.interval

theorem Core.perm (h : Core others extra s) (hp : others.Perm others') : Core others' extra s :=
  { h with
    nodup := (h.nodup.perm (hp.append_left _))
    live := fun a => by rw [h.live a, (hp.append_left _).mem_iff] }

theorem Core.size (h : Core others [] s) : s.timers.length = s.activeTimers.length := by
  rw [h.active.length_eq]
  simp

theorem Core.mem_active_iff (h : Core others [] s) {id : ℕ × ℕ} :
    id ∈ s.activeTimers ↔ ∃ e ∈ s.timers, s.idOf e = id := by
  rw [h.active.mem_iff]
  simp

theorem Core.exists_heap (h : Core others extra s) (ha : a ∈ s.timers.map Prod.snd ++ others) :
    ∃ timer, s.heap a = some timer :=
  Option.ne_none_iff_exists'.mp ((h.live a).mpr ha)

section Insert

theorem sorted_orderedInsert (h : s.timers.Pairwise fun x y => x.1 ≤ y.1) (e : ℤ × ℕ) :
    (s.timers.orderedInsert before e).Pairwise fun x y => x.1 ≤ y.1 := by
  generalize s.timers = l at *
  induction l with
  | nil => simp
  | cons b l ih =>
    obtain ⟨hb, hl⟩ := List.pairwise_cons.mp h
    rw [List.orderedInsert_cons]
    split
    · rename_i hlt
      refine List.pairwise_cons.mpr ⟨fun x hx => ?_, h⟩
      have heb : e.1 ≤ b.1 := by
        unfold before at hlt
        omega
      obtain rfl | hx := List.mem_cons.mp hx
      · exact heb
      · exact heb.trans (hb x hx)
    · rename_i hge
      refine List.pairwise_cons.mpr ⟨fun x hx => ?_, ih hl⟩
      obtain rfl | hx := (List.mem_orderedInsert _).mp hx
      · unfold before at hge
        omega
      · exact hb x hx

theorem sequenceAt_of (h : s.heap a = some timer) : s.sequenceAt a = timer.sequence := by
  rw [sequenceAt, h]
  rfl

theorem insert_ok (h : Core (a :: others) [] s) (ha : s.heap a = some timer) :
    ∃ t, s.insert a = .ok (s.isEarliest timer.expiration, t) ∧ Core others [] t ∧
      t = { s with
        timers := s.timers.orderedInsert before (timer.expiration, a)
        activeTimers := (a, timer.sequence) :: s.activeTimers } := by
  have hfresh : a ∉ s.timers.map Prod.snd := fun hmem =>
    (List.nodup_append.mp h.nodup).2.2 a hmem a List.mem_cons_self rfl
  have htimers : (timer.expiration, a) ∉ s.timers := fun hmem => hfresh (List.mem_map_of_mem (f := Prod.snd) hmem)
  have hactive : (a, timer.sequence) ∉ s.activeTimers := by
    rw [h.mem_active_iff]
    rintro ⟨e, he, hid⟩
    have hea : e.2 = a := congrArg Prod.fst hid
    exact hfresh (hea ▸ List.mem_map_of_mem (f := Prod.snd) he)
  have hperm : (s.timers.orderedInsert before (timer.expiration, a)).Perm ((timer.expiration, a) :: s.timers) :=
    List.perm_orderedInsert _ _ _
  have hsize : (s.timers.orderedInsert before (timer.expiration, a)).length =
      ((a, timer.sequence) :: s.activeTimers).length := by
    rw [hperm.length_eq, List.length_cons, List.length_cons, h.size]
  have howned : ((s.timers.orderedInsert before (timer.expiration, a)).map Prod.snd ++ others).Perm
      (s.timers.map Prod.snd ++ a :: others) :=
    ((hperm.map Prod.snd).append_right others).trans List.perm_middle.symm
  refine ⟨{ s with
    timers := s.timers.orderedInsert before (timer.expiration, a)
    activeTimers := (a, timer.sequence) :: s.activeTimers }, ?_, ⟨sorted_orderedInsert h.sorted _,
      h.nodup.perm howned.symm, fun b => ?_, fun e he => ?_, ?_, h.numbered, h.distinct, h.interval⟩, rfl⟩
  · rw [insert, check_of h.size, ok_bind, deref_of ha, ok_bind]
    dsimp only
    rw [check_of htimers, ok_bind, check_of hactive, ok_bind, check_of hsize, ok_bind]
  · rw [howned.mem_iff]
    exact h.live b
  · obtain rfl | he := (List.mem_orderedInsert _).mp he
    · intro timer' htimer'
      rw [Option.some.inj (htimer'.symm.trans ha)]
    · exact h.due e he
  · have hid : s.idOf (timer.expiration, a) = (a, timer.sequence) := by rw [idOf, sequenceAt_of ha]
    refine (h.active.cons (a, timer.sequence)).trans ?_
    rw [← hid]
    exact (hperm.map s.idOf).symm

end Insert

section Free

/-- Another number at an address that is not in the queue is not noticed there. -/
theorem map_idOf_congr {l : List (ℤ × ℕ)} (h : ∀ e ∈ l, t.heap e.2 = s.heap e.2) : l.map t.idOf = l.map s.idOf :=
  List.map_congr_left fun e he => by rw [idOf, idOf, sequenceAt, sequenceAt, h e he]

theorem Core.not_mem_timers (h : Core (a :: others) extra s) : ∀ e ∈ s.timers, e.2 ≠ a := by
  rintro e he rfl
  exact (List.nodup_append.mp h.nodup).2.2 e.2 (List.mem_map_of_mem (f := Prod.snd) he) e.2 List.mem_cons_self rfl

theorem free_ok (h : Core (a :: others) [] s) : Core others [] (s.free a) := by
  have hheap : ∀ b timer, (s.free a).heap b = some timer → s.heap b = some timer := by
    intro b timer hb
    by_cases hba : b = a
    · subst hba
      simp [free] at hb
    · simpa [free, hba] using hb
  have hkeep : ∀ e ∈ s.timers, (s.free a).heap e.2 = s.heap e.2 := fun e he => by
    simp [free, h.not_mem_timers e he]
  have hnodup : (s.timers.map Prod.snd ++ others).Nodup ∧ a ∉ s.timers.map Prod.snd ++ others := by
    have := h.nodup.perm List.perm_middle
    exact ⟨(List.nodup_cons.mp this).2, (List.nodup_cons.mp this).1⟩
  refine ⟨h.sorted, hnodup.1, fun b => ?_, fun e he timer htimer => h.due e he timer (hheap _ _ htimer), ?_,
    fun b timer hb => h.numbered b timer (hheap _ _ hb),
    fun b b' timer timer' hb hb' => h.distinct b b' timer timer' (hheap _ _ hb) (hheap _ _ hb'),
    fun b timer hb => h.interval b timer (hheap _ _ hb)⟩
  · by_cases hba : b = a
    · subst hba
      simpa [free] using hnodup.2
    · have hlive := h.live b
      simpa [free, hba] using hlive
  · have hids : s.timers.map (s.free a).idOf = s.timers.map s.idOf := map_idOf_congr hkeep
    show s.activeTimers.Perm (([] ++ s.timers).map (s.free a).idOf)
    rw [List.nil_append, hids]
    exact h.active

end Free

section Create

variable {expiration interval : ℤ} {repeats : Bool}

theorem addTimer_heap {b : ℕ} (h : (s.addTimer a expiration interval repeats).heap b = some timer) :
    b = a ∧ timer = ⟨expiration, interval, repeats, s.numCreated + 1⟩ ∨ s.heap b = some timer := by
  by_cases hba : b = a
  · subst hba
    simp only [addTimer, Function.update_self, Option.some.injEq] at h
    exact .inl ⟨rfl, h.symm⟩
  · exact .inr ((Function.update_of_ne hba _ _).symm.trans h)

/-- Timers that are owned are not touched by a new one. -/
theorem Core.addTimer_heap_of_mem (h : Core others extra s) (ha : s.heap a = none) {b : ℕ}
    (hb : b ∈ s.timers.map Prod.snd ++ others) : (s.addTimer a expiration interval repeats).heap b = s.heap b :=
  Function.update_of_ne (fun heq : b = a => (h.live b).mpr hb (heq ▸ ha)) _ _

/-- A new timer, with a number above all others. -/
theorem Core.addTimer (h : Core others [] s) (ha : s.heap a = none) (hint : repeats = true → 0 ≤ interval) :
    Core (a :: others) [] (s.addTimer a expiration interval repeats) := by
  have hfresh : a ∉ s.timers.map Prod.snd ++ others := fun hmem => (h.live a).mpr hmem ha
  have hkeep : ∀ e ∈ s.timers, (s.addTimer a expiration interval repeats).heap e.2 = s.heap e.2 := fun e he =>
    h.addTimer_heap_of_mem ha (List.mem_append_left _ (List.mem_map_of_mem (f := Prod.snd) he))
  refine ⟨h.sorted, ?_, fun b => ?_, fun e he timer htimer => h.due e he timer (hkeep e he ▸ htimer), ?_,
    fun b timer hb => ?_, fun b b' timer timer' hb hb' heq => ?_, fun b timer hb hrep => ?_⟩
  · exact (List.nodup_cons.mpr ⟨hfresh, h.nodup⟩).perm List.perm_middle.symm
  · show _ ↔ b ∈ s.timers.map Prod.snd ++ a :: others
    rw [List.perm_middle.mem_iff, List.mem_cons, ← h.live b]
    by_cases hba : b = a
    · subst hba
      simp [TimerQueue.addTimer]
    · simp [TimerQueue.addTimer, hba]
  · show s.activeTimers.Perm (([] ++ s.timers).map _)
    rw [List.nil_append, map_idOf_congr hkeep]
    exact h.active
  · obtain ⟨-, rfl⟩ | hb := addTimer_heap hb
    · exact le_rfl
    · exact (h.numbered b timer hb).trans (Nat.le_succ _)
  · obtain ⟨hba, rfl⟩ | hold := addTimer_heap hb <;> obtain ⟨hba', rfl⟩ | hold' := addTimer_heap hb'
    · exact hba.trans hba'.symm
    · have := h.numbered b' timer' hold'
      simp only at heq
      omega
    · have := h.numbered b timer hold
      simp only at heq
      omega
    · exact h.distinct b b' timer timer' hold hold' heq
  · obtain ⟨-, rfl⟩ | hb := addTimer_heap hb
    · exact hint hrep
    · exact h.interval b timer hb hrep

end Create

section Remove

/-- Entries that leave the queue belong to somebody else. -/
theorem Core.take (h : Core others [] s) (out : List (ℤ × ℕ)) {rest : List (ℤ × ℕ)} (hsub : rest.Sublist s.timers)
    (hperm : s.timers.Perm (out ++ rest)) :
    Core (out.map Prod.snd ++ others) out { s with timers := rest } := by
  have howned : (s.timers.map Prod.snd ++ others).Perm (rest.map Prod.snd ++ (out.map Prod.snd ++ others)) := by
    have hmap := hperm.map Prod.snd
    rw [List.map_append] at hmap
    rw [← List.append_assoc]
    exact (hmap.trans List.perm_append_comm).append_right others
  exact
    { sorted := h.sorted.sublist hsub
      nodup := h.nodup.perm howned
      live := fun a => (h.live a).trans howned.mem_iff
      due := fun e he => h.due e (hsub.subset he)
      active := h.active.trans (hperm.map s.idOf)
      numbered := h.numbered
      distinct := h.distinct
      interval := h.interval }

theorem Core.deactivated {e : ℤ × ℕ} (h : Core others (e :: extra) s) :
    Core others extra { s with activeTimers := s.activeTimers.erase (s.idOf e) } := by
  have herase := h.active.erase (s.idOf e)
  rw [List.cons_append, List.map_cons, List.erase_cons_head] at herase
  exact { h with active := herase }

theorem deactivate_ok {e : ℤ × ℕ} (h : Core others (e :: extra) s) (he : s.heap e.2 = some timer) :
    ∃ t, s.deactivate e = .ok t ∧ Core others extra t ∧ t = { s with activeTimers := t.activeTimers } := by
  have hid : s.idOf e = (e.2, timer.sequence) := by rw [idOf, sequenceAt_of he]
  have hmem : (e.2, timer.sequence) ∈ s.activeTimers := by
    rw [h.active.mem_iff, ← hid]
    exact List.mem_cons_self
  refine ⟨_, ?_, h.deactivated, rfl⟩
  rw [deactivate, deref_of he, ok_bind, check_of hmem, ok_bind, hid]

theorem deactivate_all_ok (h : Core others extra s) (howned : ∀ e ∈ extra, e.2 ∈ others) :
    ∃ t, runAll deactivate s extra = .ok t ∧ Core others [] t ∧ t = { s with activeTimers := t.activeTimers } := by
  induction extra generalizing s with
  | nil => exact ⟨s, rfl, h, rfl⟩
  | cons e extra ih =>
    obtain ⟨timer, he⟩ := h.exists_heap (List.mem_append_right _ (howned e List.mem_cons_self))
    obtain ⟨t, ht, hcore, hframe⟩ := deactivate_ok h he
    obtain ⟨u, hu, hcore', hframe'⟩ := ih hcore fun e' he' => howned e' (List.mem_cons_of_mem _ he')
    exact ⟨u, (runAll_cons ht).trans hu, hcore', by rw [hframe', hframe]⟩

theorem getExpired_ok (h : Core others [] s) (now : ℤ) :
    ∃ t, s.getExpired now = .ok (s.timers.takeWhile (·.1 ≤ now), t) ∧
      Core ((s.timers.takeWhile (·.1 ≤ now)).map Prod.snd ++ others) [] t ∧
      t = { s with timers := s.timers.dropWhile (·.1 ≤ now), activeTimers := t.activeTimers } := by
  have htake := h.take _ (List.dropWhile_sublist (fun e : ℤ × ℕ => decide (e.1 ≤ now)))
    (List.Perm.of_eq List.takeWhile_append_dropWhile.symm)
  have hhead : ∀ e ∈ (s.timers.dropWhile (·.1 ≤ now)).head?, now < e.1 := by
    intro e he
    have := List.head?_dropWhile_not (fun e : ℤ × ℕ => decide (e.1 ≤ now)) s.timers
    rw [Option.mem_def.mp he] at this
    simpa using this
  obtain ⟨t, ht, hcore, hframe⟩ := deactivate_all_ok htake fun e he =>
    List.mem_append_left _ (List.mem_map_of_mem (f := Prod.snd) he)
  refine ⟨t, ?_, hcore, hframe⟩
  rw [getExpired, check_of h.size, ok_bind]
  dsimp only
  rw [check_of hhead, ok_bind, ht, ok_bind, check_of hcore.size, ok_bind]

/-- Cancelling deletes a timer of the queue; another one is remembered while callbacks run. -/
theorem cancelInLoop_ok (h : Core others [] s) (id : ℕ × ℕ) :
    ∃ t, s.cancelInLoop id = .ok t ∧ Core others [] t ∧
      ((∃ e ∈ s.timers, s.idOf e = id ∧ t = { s.free e.2 with
          timers := s.timers.erase e
          activeTimers := s.activeTimers.erase id }) ∨
        (∀ e ∈ s.timers, s.idOf e ≠ id) ∧
          t = { s with cancelingTimers := if s.batch.isSome then s.cancelingTimers.insert id else s.cancelingTimers }) := by
  by_cases hid : id ∈ s.activeTimers
  · obtain ⟨e, he, rfl⟩ := h.mem_active_iff.mp hid
    obtain ⟨timer, htimer⟩ := h.exists_heap (List.mem_append_left others (List.mem_map_of_mem (f := Prod.snd) he))
    have hentry : (timer.expiration, e.2) = e := by rw [h.due e he timer htimer]
    have htaken : Core (e.2 :: others) [e] { s with timers := s.timers.erase e } :=
      h.take [e] List.erase_sublist (List.perm_cons_erase he)
    have hfreed := free_ok htaken.deactivated
    refine ⟨_, ?_, hfreed, .inl ⟨e, he, rfl, rfl⟩⟩
    have hderef : s.deref (s.idOf e).1 = .ok timer := deref_of htimer
    have hmem : (timer.expiration, (s.idOf e).1) ∈ s.timers := hentry ▸ he
    have hsize : (s.timers.erase (timer.expiration, (s.idOf e).1)).length =
        (s.activeTimers.erase (s.idOf e)).length := hentry.symm ▸ hfreed.size
    rw [cancelInLoop, check_of h.size, ok_bind, if_pos hid, hderef, ok_bind, check_of hmem, ok_bind]
    dsimp only
    rw [check_of hsize, ok_bind]
    exact congrArg (fun x => Except.ok { s.free e.2 with
      timers := s.timers.erase x
      activeTimers := s.activeTimers.erase (s.idOf e) }) hentry
  · have hnone : ∀ e ∈ s.timers, s.idOf e ≠ id := fun e he heq => hid (h.mem_active_iff.mpr ⟨e, he, heq⟩)
    refine ⟨_, ?_, ?_, .inr ⟨hnone, rfl⟩⟩
    · rw [cancelInLoop, check_of h.size, ok_bind, if_neg hid]
      split
      · dsimp only
        rw [check_of h.size, ok_bind]
      · dsimp only
        rw [check_of h.size, ok_bind]
    · exact { h with active := h.active }

end Remove

section Reset

variable {e : ℤ × ℕ} {expired : List (ℤ × ℕ)}

/-- What `reset` does to the timers of a batch: each is deleted or gets a new time, with its number kept. -/
structure Restarted (now : ℤ) (expired : List (ℤ × ℕ)) (s t : TimerQueue) : Prop where
  frame : t = { s with heap := t.heap, timers := t.timers, activeTimers := t.activeTimers }
  kept : ∀ b timer, t.heap b = some timer → ∃ timer', s.heap b = some timer' ∧ timer'.sequence = timer.sequence
  others : ∀ b, b ∉ expired.map Prod.snd → t.heap b = s.heap b
  cancelled : ∀ e ∈ expired, s.idOf e ∈ s.cancelingTimers → t.heap e.2 = none
  later : ∀ e ∈ t.timers, e ∈ s.timers ∨ now ≤ e.1

/-- A timer that is not in the queue gets a new time. -/
theorem Core.restart (h : Core (a :: others) [] s) (ha : s.heap a = some timer) (now : ℤ) :
    Core (a :: others) [] { s with heap := Function.update s.heap a (some (timer.restart now)) } := by
  have hheap : ∀ b timer', Function.update s.heap a (some (timer.restart now)) b = some timer' →
      ∃ timer₀, s.heap b = some timer₀ ∧ timer'.sequence = timer₀.sequence ∧ timer'.repeats = timer₀.repeats ∧
        timer'.interval = timer₀.interval := by
    intro b timer' hb
    by_cases hba : b = a
    · subst hba
      rw [Function.update_self] at hb
      cases hb
      exact ⟨timer, ha, rfl, rfl, rfl⟩
    · rw [Function.update_of_ne hba] at hb
      exact ⟨timer', hb, rfl, rfl, rfl⟩
  have hkeep : ∀ e ∈ s.timers, Function.update s.heap a (some (timer.restart now)) e.2 = s.heap e.2 := fun e he =>
    Function.update_of_ne (h.not_mem_timers e he) _ _
  refine ⟨h.sorted, h.nodup, fun b => ?_, fun e he timer' htimer' => h.due e he timer' (hkeep e he ▸ htimer'), ?_,
    fun b timer' hb => ?_, fun b b' timer₁ timer₂ hb hb' heq => ?_, fun b timer' hb hrep => ?_⟩
  · rw [← h.live b]
    by_cases hba : b = a
    · subst hba
      simp [ha]
    · simp [hba]
  · have hids := map_idOf_congr (s := s)
      (t := { s with heap := Function.update s.heap a (some (timer.restart now)) }) hkeep
    rw [List.nil_append, hids]
    exact h.active
  · obtain ⟨timer₀, hb₀, hseq, -, -⟩ := hheap b timer' hb
    rw [hseq]
    exact h.numbered b timer₀ hb₀
  · obtain ⟨timer₁', hb₁, hseq₁, -, -⟩ := hheap b timer₁ hb
    obtain ⟨timer₂', hb₂, hseq₂, -, -⟩ := hheap b' timer₂ hb'
    exact h.distinct b b' timer₁' timer₂' hb₁ hb₂ (hseq₁ ▸ hseq₂ ▸ heq)
  · obtain ⟨timer₀, hb₀, -, hrep₀, hint₀⟩ := hheap b timer' hb
    rw [hint₀]
    exact h.interval b timer₀ hb₀ (hrep₀ ▸ hrep)

theorem resetOne_ok (now : ℤ) (h : Core (e.2 :: others) [] s) :
    ∃ t, s.resetOne now e = .ok t ∧ Core others [] t ∧ Restarted now [e] s t := by
  obtain ⟨timer, he⟩ := h.exists_heap (List.mem_append_right (s.timers.map Prod.snd) List.mem_cons_self)
  have hid : s.idOf e = (e.2, timer.sequence) := by rw [idOf, sequenceAt_of he]
  by_cases hcond : timer.repeats ∧ (e.2, timer.sequence) ∉ s.cancelingTimers
  · have hself : Function.update s.heap e.2 (some (timer.restart now)) e.2 = some (timer.restart now) :=
      Function.update_self _ _ _
    obtain ⟨t, ht, hcore, rfl⟩ := insert_ok (h.restart he now) hself
    refine ⟨_, by rw [resetOne, deref_of he, ok_bind, if_pos hcond, ht, ok_bind], hcore, rfl, fun b timer' hb => ?_,
      fun b hb => ?_, fun e' he' hcancel => ?_, fun e' he' => ?_⟩
    · by_cases hba : b = e.2
      · subst hba
        rw [← Option.some.inj (hself.symm.trans hb)]
        exact ⟨timer, he, rfl⟩
      · exact ⟨timer', (Function.update_of_ne hba _ _).symm.trans hb, rfl⟩
    · exact Function.update_of_ne (fun heq => hb (List.mem_singleton.mpr heq)) _ _
    · rw [List.mem_singleton.mp he', hid] at hcancel
      exact absurd hcancel hcond.2
    · obtain rfl | he' := (List.mem_orderedInsert _).mp he'
      · right
        have := h.interval e.2 timer he hcond.1
        simp only [Timer.restart, hcond.1, if_true]
        omega
      · exact .inl he'
  · refine ⟨s.free e.2, by rw [resetOne, deref_of he, ok_bind, if_neg hcond], free_ok h, rfl, fun b timer' hb => ?_,
      fun b hb => ?_, fun e' he' _ => ?_, fun e' he' => .inl he'⟩
    · by_cases hba : b = e.2
      · subst hba
        simp [free] at hb
      · exact ⟨timer', (Function.update_of_ne hba _ _).symm.trans hb, rfl⟩
    · exact Function.update_of_ne (fun heq => hb (List.mem_singleton.mpr heq)) _ _
    · rw [List.mem_singleton.mp he']
      exact Function.update_self _ _ _

theorem resetAll_ok (now : ℤ) (h : Core (expired.map Prod.snd ++ others) [] s) :
    ∃ t, runAll (resetOne now) s expired = .ok t ∧ Core others [] t ∧ Restarted now expired s t := by
  induction expired generalizing s with
  | nil => exact ⟨s, rfl, h, rfl, fun b timer hb => ⟨timer, hb, rfl⟩, fun _ _ => rfl, by simp, fun e he => .inl he⟩
  | cons e expired ih =>
    have hne : e.2 ∉ expired.map Prod.snd := by
      have := (List.nodup_append.mp h.nodup).2.1
      rw [List.map_cons, List.cons_append, List.nodup_cons] at this
      exact fun hmem => this.1 (List.mem_append_left _ hmem)
    obtain ⟨t, ht, hcore, hone⟩ := resetOne_ok now h
    obtain ⟨u, hu, hcore', hrest⟩ := ih hcore
    refine ⟨u, (runAll_cons ht).trans hu, hcore', ?_, fun b timer hb => ?_, fun b hb => ?_, fun e' he' hcancel => ?_,
      fun e' he' => ?_⟩
    · rw [hrest.frame, hone.frame]
    · obtain ⟨timer', hb', hseq'⟩ := hrest.kept b timer hb
      obtain ⟨timer'', hb'', hseq''⟩ := hone.kept b timer' hb'
      exact ⟨timer'', hb'', hseq''.trans hseq'⟩
    · rw [List.map_cons, List.mem_cons, not_or] at hb
      rw [hrest.others b hb.2, hone.others b (by simpa using hb.1)]
    · obtain rfl | he' := List.mem_cons.mp he'
      · rw [hrest.others _ hne]
        exact hone.cancelled _ List.mem_cons_self hcancel
      · -- the step before did not touch this timer
        have hsame : t.heap e'.2 = s.heap e'.2 := hone.others _ fun hmem =>
          hne (List.mem_singleton.mp hmem ▸ List.mem_map_of_mem (f := Prod.snd) he')
        refine hrest.cancelled e' he' ?_
        rw [idOf, sequenceAt, hsame, hone.frame]
        exact hcancel
    · obtain he' | he' := hrest.later e' he'
      · exact hone.later e' he'
      · exact .inr he'

end Reset

end CppBase.Muduo.TimerQueue
