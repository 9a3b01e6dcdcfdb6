import CppBase.Lib.Scan
import CppBase.Spec.AudioProc

/-! The segment length of a split request. `calcInterval` looks for the largest remainder,
which is the length of the last segment unless the candidate divides the duration. -/

namespace CppBase.Mediaproc.AudioProc

open CppBase.Lib

section Candidates

variable {d i lower upper : ℤ} {duration : ℚ}

theorem mem_candidates : i ∈ candidates lower upper ↔ lower ≤ i ∧ i < upper := by
  simp only [candidates, List.mem_map, List.mem_range]
  constructor
  · rintro ⟨k, hk, rfl⟩
    omega
  · intro h
    exact ⟨(i - lower).toNat, by omega, by omega⟩

theorem candidates_sorted : (candidates lower upper).Pairwise (· < ·) := by
  refine List.pairwise_map.mpr (List.pairwise_lt_range.imp fun h => ?_)
  omega

/-- Without zero among the candidates the loop is a scan for the largest remainder. -/
theorem calcInterval_eq_foldl (h0 : 0 ∉ candidates lower upper) :
    calcInterval duration lower upper =
      .ok ((candidates lower upper).foldl (keepBest (· ≤ ·) fun i => ⌈duration⌉.tmod i) (0, lower)).2 := by
  have hrun : runAll (calcRound ⌈duration⌉) (0, lower) (candidates lower upper) =
      .ok ((candidates lower upper).foldl (keepBest (· ≤ ·) fun i => ⌈duration⌉.tmod i) (0, lower)) := by
    refine runAll_eq_foldl fun best i hi => ?_
    have hne : i ≠ 0 := fun h => h0 (h ▸ hi)
    rw [calcRound, rem, if_neg hne, ok_bind, keepBest]
    split_ifs <;> rfl
  rw [calcInterval, hrun]
  rfl

/-- All remainders are negative and it returns the first candidate, or one with the
largest remainder, and of those the last. -/
theorem calcInterval_scan (h0 : 0 ∉ candidates lower upper) :
    (calcInterval duration lower upper = .ok lower ∧ ∀ j ∈ candidates lower upper, ⌈duration⌉.tmod j < 0) ∨
      ∃ pre i post, candidates lower upper = pre ++ i :: post ∧ calcInterval duration lower upper = .ok i ∧
        (∀ j ∈ pre, ⌈duration⌉.tmod j ≤ ⌈duration⌉.tmod i) ∧
          ∀ j ∈ post, ⌈duration⌉.tmod j < ⌈duration⌉.tmod i := by
  rw [calcInterval_eq_foldl h0]
  obtain ⟨heq, hnone⟩ | ⟨pre, i, post, hl, heq, -, hpre, hpost⟩ :=
    foldl_keepBest (r := fun x y : ℤ => x ≤ y) (w := fun i => ⌈duration⌉.tmod i) (m := 0) (b := lower)
      le_trans (fun h h' => (not_le.mp h').le.trans h) (candidates lower upper)
  · rw [heq]
    exact .inl ⟨rfl, fun j hj => not_le.mp (hnone j hj)⟩
  · rw [heq]
    exact .inr ⟨pre, i, post, hl, rfl, hpre, fun j hj => not_le.mp (hpost j hj)⟩

theorem calcInterval_mem (duration : ℚ) (h0 : 0 ∉ candidates lower upper) (h : lower < upper) :
    ∃ i, calcInterval duration lower upper = .ok i ∧ lower ≤ i ∧ i < upper := by
  obtain ⟨heq, -⟩ | ⟨pre, i, post, hl, heq, -⟩ := calcInterval_scan h0
  · exact ⟨lower, heq, le_rfl, h⟩
  · exact ⟨i, heq, mem_candidates.mp (hl ▸ by simp)⟩

/-- Zero among the candidates is divided by. -/
theorem calcInterval_zero (h0 : 0 ∈ candidates lower upper) : calcInterval duration lower upper ≠ .ok i := by
  intro h
  cases hrun : runAll (calcRound ⌈duration⌉) (0, lower) (candidates lower upper) with
  | error f =>
    simp only [calcInterval, hrun, error_bind] at h
    cases h
  | ok best =>
    obtain ⟨v, t, hstep⟩ := runAll_ok_mem hrun h0
    cases hstep

end Candidates

section Safety

section Handler

variable {δ : Type} {dataId : String} {duration : ℚ} {calls : AudioSplit.Calls δ} {timeBase : AudioSplit.AVRational}
  {decoded : List (Option (List (AudioSplit.AVFrame δ)))} {lower upper : ℤ}

/-- The only division of the handler is that for the segment length. -/
theorem splitAudio_divisionByZero_iff :
    splitAudio true dataId duration calls timeBase decoded lower upper = .error .divisionByZero ↔
      chooseSegtime duration lower upper = .error .divisionByZero := by
  unfold splitAudio
  cases chooseSegtime duration lower upper with
  | error f => simp
  | ok segtime =>
    simp only [Bool.not_true, Bool.false_eq_true, if_false, ok_bind, reduceCtorEq, iff_false]
    cases AudioSplit.splitAudio calls timeBase segtime [] decoded with
    | ok contents => simp
    | error stop => cases stop <;> simp

/-- What the handler passes on is the length chosen. -/
theorem splitAudio_segtime {r : SplitResult δ}
    (h : splitAudio true dataId duration calls timeBase decoded lower upper = .ok r) :
    chooseSegtime duration lower upper = .ok r.segtime := by
  unfold splitAudio at h
  cases hchoose : chooseSegtime duration lower upper with
  | error f => simp [hchoose] at h
  | ok segtime =>
    simp only [hchoose, Bool.not_true, Bool.false_eq_true, if_false, ok_bind] at h
    cases hsplit : AudioSplit.splitAudio calls timeBase segtime [] decoded with
    | ok contents =>
      rw [hsplit] at h
      cases h
      rfl
    | error stop =>
      rw [hsplit] at h
      cases stop with
      | fails contents =>
        cases h
        rfl
      | overflow => cases h

end Handler

/-- The length chosen for a request is positive exactly if its lower bound is. The handler passes on
the length that was chosen, and divides by zero where choosing it does. -/
theorem chooseSegtime_safe_iff (duration : ℚ) (lower upper : ℤ) :
    ((∃ segtime, chooseSegtime duration lower upper = .ok segtime ∧ 1 ≤ segtime) ↔ 1 ≤ lower) ∧
      ∀ (δ : Type) (dataId : String) (calls : AudioSplit.Calls δ) (timeBase : AudioSplit.AVRational)
        (decoded : List (Option (List (AudioSplit.AVFrame δ)))),
        (splitAudio true dataId duration calls timeBase decoded lower upper = .error .divisionByZero ↔
          chooseSegtime duration lower upper = .error .divisionByZero) ∧
        ∀ r, splitAudio true dataId duration calls timeBase decoded lower upper = .ok r →
          chooseSegtime duration lower upper = .ok r.segtime := by
  refine ⟨?_, fun _ _ _ _ _ => ⟨splitAudio_divisionByZero_iff, fun _ => splitAudio_segtime⟩⟩
  unfold chooseSegtime
  split_ifs with hlt
  · by_cases h0 : 0 ∈ candidates lower upper
    · refine iff_of_false (fun ⟨i, hi, _⟩ => calcInterval_zero h0 hi) ?_
      have := mem_candidates.mp h0
      omega
    · obtain ⟨i, hi, hle, hiu⟩ := calcInterval_mem duration h0 hlt
      rw [mem_candidates] at h0
      constructor
      · rintro ⟨j, hj, hpos⟩
        obtain rfl : i = j := Except.ok.inj (hi.symm.trans hj)
        omega
      · exact fun h => ⟨i, hi, h.trans hle⟩
  · exact ⟨fun ⟨_, heq, h⟩ => Except.ok.inj heq ▸ h, fun h => ⟨lower, rfl, h⟩⟩

/-- No lower bound, up to half a minute; and both bounds left at zero. -/
theorem chooseSegtime_zero :
    chooseSegtime 60 0 30 = .error .divisionByZero ∧ chooseSegtime 60 0 0 = .ok 0 := by
  decide +kernel

end Safety

section Longest

/-- The length of the last segment when `d` seconds are cut every `i` seconds. -/
def lastSegment (d i : ℤ) : ℤ := if d < i then d else if i ∣ d then i else d % i

variable {d i j lower upper : ℤ}

theorem lastSegment_of_dvd (hd : 1 ≤ d) (h : i ∣ d) : lastSegment d i = i := by
  have hle : i ≤ d := Int.le_of_dvd (by omega) h
  rw [lastSegment, if_neg (by omega), if_pos h]

theorem lastSegment_of_not_dvd (hd : 1 ≤ d) (h : ¬ i ∣ d) : lastSegment d i = d % i := by
  rw [lastSegment]
  split_ifs with hlt
  · exact (Int.emod_eq_of_lt (by omega) hlt).symm
  · rfl

theorem emod_le_lastSegment (hd : 1 ≤ d) (hi : 1 ≤ i) : d % i ≤ lastSegment d i := by
  by_cases h : i ∣ d
  · rw [lastSegment_of_dvd hd h, Int.emod_eq_zero_of_dvd h]
    omega
  · rw [lastSegment_of_not_dvd hd h]

/-- What the loop finds: the largest remainder, and of several the last. -/
theorem calcInterval_largest {duration : ℚ} (hd : 1 ≤ ⌈duration⌉) (hl : 1 ≤ lower) (hu : lower < upper) :
    ∃ i, calcInterval duration lower upper = .ok i ∧ (lower ≤ i ∧ i < upper) ∧
      ∀ j, lower ≤ j → j < upper → ⌈duration⌉ % j < ⌈duration⌉ % i ∨ ⌈duration⌉ % j ≤ ⌈duration⌉ % i ∧ j ≤ i := by
  have h0 : 0 ∉ candidates lower upper := fun h => by
    have := mem_candidates.mp h
    omega
  have hmod : ∀ j, ⌈duration⌉.tmod j = ⌈duration⌉ % j := fun j =>
    Int.tmod_eq_emod_of_nonneg (by omega)
  have hscan := @calcInterval_scan lower upper duration h0
  simp only [hmod] at hscan
  obtain ⟨-, hneg⟩ | ⟨pre, i, post, hl, heq, hpre, hpost⟩ := hscan
  · have hlt := hneg lower (mem_candidates.mpr ⟨le_rfl, hu⟩)
    exact absurd (Int.emod_nonneg ⌈duration⌉ (by omega)) (not_le.mpr hlt)
  · refine ⟨i, heq, mem_candidates.mp (hl ▸ by simp), fun j hjl hju => ?_⟩
    have hsorted : (pre ++ i :: post).Pairwise (· < ·) := hl ▸ candidates_sorted
    have hj : j ∈ pre ++ i :: post := hl ▸ mem_candidates.mpr ⟨hjl, hju⟩
    obtain hj | hj := List.mem_append.mp hj
    · exact .inr ⟨hpre j hj, ((List.pairwise_append.mp hsorted).2.2 j hj i (by simp)).le⟩
    obtain rfl | hj := List.mem_cons.mp hj
    · exact .inr ⟨le_rfl, le_rfl⟩
    · exact .inl (hpost j hj)

/-- `calcInterval` makes the last segment as long as it can be exactly if all candidates
divide the duration, or each that does is at most one of the remainders. -/
theorem calcInterval_longest_iff (duration : ℚ) (hd : 1 ≤ ⌈duration⌉) (lower upper : ℤ) (hl : 1 ≤ lower)
    (hu : lower < upper) :
    (∃ i, calcInterval duration lower upper = .ok i ∧ (lower ≤ i ∧ i < upper) ∧
        ∀ j, lower ≤ j → j < upper → lastSegment ⌈duration⌉ j ≤ lastSegment ⌈duration⌉ i) ↔
      (∀ i, lower ≤ i → i < upper → i ∣ ⌈duration⌉) ∨
        ∀ i, lower ≤ i → i < upper → i ∣ ⌈duration⌉ → ∃ j, (lower ≤ j ∧ j < upper) ∧ i ≤ ⌈duration⌉ % j := by
  obtain ⟨i, heq, hi, hbest⟩ := calcInterval_largest hd hl hu
  generalize ⌈duration⌉ = d at *
  have hlargest : ∀ j, lower ≤ j → j < upper → d % j ≤ d % i := fun j hjl hju =>
    (hbest j hjl hju).elim le_of_lt And.left
  have hle := emod_le_lastSegment hd (hl.trans hi.1)
  constructor
  · rintro ⟨i', heq', -, hlast⟩
    obtain rfl : i = i' := Except.ok.inj (heq.symm.trans heq')
    by_contra hno
    push Not at hno
    obtain ⟨⟨k, hkl, hku, hk⟩, j, hjl, hju, hj, hsmall⟩ := hno
    -- a remainder is left over, so the one found is not zero and is the last segment
    have hpos : 0 < d % k := Int.emod_pos_of_not_dvd hk |>.resolve_left (by omega)
    have hki := hlargest k hkl hku
    have hndvd : ¬ i ∣ d := fun h => by
      rw [Int.emod_eq_zero_of_dvd h] at hki
      omega
    have hlong := hlast j hjl hju
    rw [lastSegment_of_dvd hd hj, lastSegment_of_not_dvd hd hndvd] at hlong
    exact absurd hlong (not_le.mpr (hsmall i hi))
  · intro hcond
    refine ⟨i, heq, hi, fun j hjl hju => ?_⟩
    by_cases hj : j ∣ d
    · rw [lastSegment_of_dvd hd hj]
      obtain hall | hcover := hcond
      · rw [lastSegment_of_dvd hd (hall i hi.1 hi.2)]
        refine (hbest j hjl hju).elim (fun hlt => ?_) And.right
        rw [Int.emod_eq_zero_of_dvd hj, Int.emod_eq_zero_of_dvd (hall i hi.1 hi.2)] at hlt
        exact absurd hlt (lt_irrefl 0)
      · obtain ⟨k, hk, hjk⟩ := hcover j hjl hju hj
        exact hjk.trans ((hlargest k hk.1 hk.2).trans hle)
    · rw [lastSegment_of_not_dvd hd hj]
      exact (hlargest j hjl hju).trans hle

/-- Seven seconds, every three to five: four leave a segment of three. -/
theorem calcInterval_longest_seven :
    calcInterval 7 3 6 = .ok 4 ∧
      ∃ i, calcInterval 7 3 6 = .ok i ∧ (3 ≤ i ∧ i < 6) ∧
        ∀ j, 3 ≤ j → j < 6 → lastSegment ⌈(7 : ℚ)⌉ j ≤ lastSegment ⌈(7 : ℚ)⌉ i := by
  have hceil : ⌈(7 : ℚ)⌉ = 7 := by decide +kernel
  have hd : 1 ≤ ⌈(7 : ℚ)⌉ := by decide +kernel
  refine ⟨by decide +kernel, (calcInterval_longest_iff 7 hd 3 6 (by decide) (by decide)).mpr ?_⟩
  refine .inr fun i hl hu hdvd => ?_
  rw [hceil] at hdvd
  obtain rfl | rfl | rfl : i = 3 ∨ i = 4 ∨ i = 5 := by omega
  all_goals exact absurd hdvd (by decide)

/-- Ten seconds, every five or six: two full segments would be better. -/
theorem calcInterval_misses_divisor :
    calcInterval 10 5 7 = .ok 6 ∧ lastSegment 10 6 = 4 ∧ lastSegment 10 5 = 5 := by
  decide +kernel

end Longest

end CppBase.Mediaproc.AudioProc
