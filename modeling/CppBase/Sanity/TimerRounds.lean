import CppBase.Spec.AsyncTimer

/-! The rounds of the loop in `check`: what one round does, what a loop that ends
preserves, and when it never ends. -/

namespace CppBase.Utility.AsyncTimer

open CppBase.Lib

/-- One round: the entry at `begin()` is due and leaves the map. -/
inductive Round (now : ℤ) :
    AsyncTimer → List (String × WaitEvent) → AsyncTimer → List (String × WaitEvent) → Prop
  | drop {s fires due name rest} : s.timers.toList = (due, name) :: rest → due ≤ now → s.events name = none →
    Round now s fires { s with timers := s.timers.eraseBegin } fires
  | again {s fires due name rest ev} : s.timers.toList = (due, name) :: rest → due ≤ now →
    s.events name = some ev → ev.isTimer = true →
    Round now s fires { s with timers := s.timers.eraseBegin.insert (now + ev.interval) name }
      (fires ++ [(name, ev)])
  | once {s fires due name rest ev} : s.timers.toList = (due, name) :: rest → due ≤ now →
    s.events name = some ev → ev.isTimer = false →
    Round now s fires { s with timers := s.timers.eraseBegin, events := Function.update s.events name none }
      (fires ++ [(name, ev)])

variable {now : ℤ} {s : AsyncTimer} {fires : List (String × WaitEvent)}

/-- Nothing is due and the loop ends, or there is one round more. -/
theorem checkLoop_cases (now : ℤ) (s : AsyncTimer) (fires : List (String × WaitEvent)) :
    ((∀ e ∈ s.timers.toList, now < e.1) ∧ ∀ fuel, s.checkLoop now (fuel + 1) fires = .ok (s, fires)) ∨
      ∃ t fires', Round now s fires t fires' ∧
        ∀ fuel, s.checkLoop now (fuel + 1) fires = t.checkLoop now fuel fires' := by
  cases hbegin : s.timers.toList with
  | nil => exact .inl ⟨nofun, fun fuel => by simp only [checkLoop, hbegin]⟩
  | cons e rest =>
    obtain ⟨due, name⟩ := e
    by_cases hdue : due > now
    · refine .inl ⟨?_, fun fuel => by simp only [checkLoop, hbegin, if_pos hdue]⟩
      rw [← hbegin]
      exact Multimap.forall_lt_of_head hbegin hdue
    · have hle : due ≤ now := not_lt.mp hdue
      cases hev : s.events name with
      | none =>
        refine .inr ⟨_, _, .drop hbegin hle hev, fun fuel => ?_⟩
        simp only [checkLoop, hbegin, if_neg hdue, hev]
      | some ev =>
        cases htimer : ev.isTimer with
        | true =>
          refine .inr ⟨_, _, .again hbegin hle hev htimer, fun fuel => ?_⟩
          simp only [checkLoop, hbegin, if_neg hdue, hev, htimer, if_true]
        | false =>
          refine .inr ⟨_, _, .once hbegin hle hev htimer, fun fuel => ?_⟩
          simp only [checkLoop, hbegin, if_neg hdue, hev, htimer, Bool.false_eq_true, if_false]

/-- A round leaves one due entry less, unless it makes its timer due again at once. -/
theorem Round.countLe {t : AsyncTimer} {fires' : List (String × WaitEvent)} (h : Round now s fires t fires')
    (hpos : ∀ e ∈ s.timers.toList, e.1 ≤ now → ∀ ev, s.events e.2 = some ev → ev.isTimer = true → 1 ≤ ev.interval) :
    t.timers.countLe now < s.timers.countLe now := by
  cases h with
  | drop hbegin hdue =>
    have := Multimap.countLe_eraseBegin hbegin hdue
    show s.timers.eraseBegin.countLe now < _
    omega
  | again hbegin hdue hev htimer =>
    have := Multimap.countLe_eraseBegin hbegin hdue
    have hint := hpos _ (by rw [hbegin]; exact List.mem_cons_self) hdue _ hev htimer
    rw [Multimap.countLe_insert_of_lt _ _ (by omega)]
    omega
  | once hbegin hdue =>
    have := Multimap.countLe_eraseBegin hbegin hdue
    show s.timers.eraseBegin.countLe now < _
    omega

/-- With a round for each due entry and one more, the loop ends with nothing due,
and with what each round preserves. -/
theorem checkLoop_rule {I : AsyncTimer → List (String × WaitEvent) → Prop}
    (hround : ∀ s fires t fires', Round now s fires t fires' → I s fires →
      t.timers.countLe now < s.timers.countLe now ∧ I t fires') {fuel : ℕ} (hI : I s fires)
    (hfuel : s.timers.countLe now < fuel) :
    ∃ t fires', s.checkLoop now fuel fires = .ok (t, fires') ∧ I t fires' ∧ ∀ e ∈ t.timers.toList, now < e.1 := by
  induction fuel generalizing s fires with
  | zero => omega
  | succ fuel ih =>
    rcases checkLoop_cases now s fires with ⟨hlate, hend⟩ | ⟨t, fires', hr, hnext⟩
    · exact ⟨s, fires, hend fuel, hI, hlate⟩
    · obtain ⟨hlt, hI'⟩ := hround _ _ _ _ hr hI
      rw [hnext]
      exact ih hI' (by omega)

/-- A loop that always has one round more never ends. -/
theorem checkLoop_hangs {I : AsyncTimer → Prop} (hdue : ∀ s, I s → ∃ e ∈ s.timers.toList, e.1 ≤ now)
    (hround : ∀ s fires t fires', Round now s fires t fires' → I s → I t) (hI : I s) (fuel : ℕ) :
    s.checkLoop now fuel fires = .error .hangs := by
  induction fuel generalizing s fires with
  | zero => rfl
  | succ fuel ih =>
    rcases checkLoop_cases now s fires with ⟨hlate, -⟩ | ⟨t, fires', hr, hnext⟩
    · obtain ⟨e, he, hle⟩ := hdue s hI
      exact absurd (hlate e he) (not_lt.mpr hle)
    · rw [hnext]
      exact ih (hround _ _ _ _ hr hI)

end CppBase.Utility.AsyncTimer
