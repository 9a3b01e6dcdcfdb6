import CppBase.Lib.History
import CppBase.Proofs.CutShots
import Mathlib.Tactic.Linarith

/-! The times of the frames. `base_pts` counts as unset while it is negative, so it moves
along with frames before zero. Which frames are put out does not depend on it. -/

namespace CppBase.Mediaproc.CutFrames

open CppBase.Lib AudioSplit

variable {γ : Type} {config : Config} {timeBase : AVRational} {c c' : Cutter γ} {pts pts0 : ℤ}
  {picture : Option γ}

section Chosen

/-- The frames to put out of those decoded, with their pictures: each one that can be
encoded when the last is an interval away. -/
def sample (config : Config) : Option (ℤ × ℤ) → List (ℤ × Option γ) → List (ℤ × γ)
  | _, [] => []
  | last, (pts, picture) :: frames =>
    let last := last.map (Prod.map id (· + 1))
    match picture with
    | none => sample config last frames
    | some content =>
      if config.Wants last pts then (pts, content) :: sample config (some (pts, 0)) frames
      else sample config last frames

/-- The packets at which `continue` skips the test for `maxFrames`. -/
def Packet.skipped : Packet γ → Bool
  | .video _ .error | .video _ .noFrame => true
  | _ => false

/-- The frames put out, of these packets. Without room for any, the loop still gets to the
first packet that is not skipped. -/
def chosen (config : Config) (packets : List (Packet γ)) : List (ℤ × γ) :=
  if 0 < config.maxFrames then (sample config none (packets.filterMap Packet.decoded)).take config.maxFrames.toNat
  else sample config none (((packets.dropWhile Packet.skipped).take 1).filterMap Packet.decoded)

def Shot.chosen (x : Shot γ) : Option (ℤ × γ) := x.info.map fun frameInfo => (x.pts, frameInfo.content)

theorem Cutter.last_count (c : Cutter γ) (pts : ℤ) :
    (c.count pts).last = c.last.map (Prod.map id (· + 1)) := by
  by_cases hzero : c.encodeCount = 0
  · simp [Cutter.last, Cutter.count, hzero]
  · simp only [Cutter.last, Cutter.count, hzero, if_false, Option.map_some, Prod.map_apply, id]
    rw [sub_add_eq_add_sub]

theorem cutFrame_sample (hc : 0 ≤ c.encodeCount) (h : cutFrame config c pts picture = .ok c') :
    ∃ x : Shot γ, c'.shots = c.shots ++ [x] ∧ c'.encodeCount = c.encodeCount + x.chosen.toList.length ∧
      ∀ frames, sample config c.last ((pts, picture) :: frames) =
        x.chosen.toList ++ sample config c'.last frames := by
  obtain ⟨tried, htried, hcases⟩ := cutFrame_cases h
  have hwants := shouldEncode_iff htried
  rw [c.last_count] at hwants
  obtain ⟨frameInfo, rfl, rfl, -, rfl⟩ | ⟨hnone, rfl⟩ := hcases
  · refine ⟨_, rfl, rfl, fun frames => ?_⟩
    have hlast : ((c.count pts).take pts frameInfo).last = some (pts, 0) := by
      have hcount : c.encodeCount + 1 ≠ 0 := by omega
      simp [Cutter.last, Cutter.take, Cutter.count, hcount]
    rw [hlast]
    exact if_pos (hwants.mp rfl)
  · refine ⟨_, rfl, (add_zero _).symm, fun frames => ?_⟩
    have hlast : ((c.count pts).pass pts picture tried).last = c.last.map (Prod.map id (· + 1)) :=
      c.last_count pts
    rw [hlast]
    cases picture with
    | none => rfl
    | some content => exact if_neg (mt hwants.mpr fun ht => nomatch hnone ht)

variable {packets : List (Packet γ)}

/-- While there is room, the frames put out are the next ones of the sampling. -/
theorem cutLoop_sample (hc : 0 ≤ c.encodeCount) (hroom : c.encodeCount < config.maxFrames)
    (h : cutLoop config c packets = .ok c') :
    c'.shots.filterMap Shot.chosen = c.shots.filterMap Shot.chosen ++
      (sample config c.last (packets.filterMap Packet.decoded)).take (config.maxFrames - c.encodeCount).toNat := by
  induction packets generalizing c with
  | nil =>
    obtain rfl : c = c' := Except.ok.inj h
    simp [sample]
  | cons packet packets ih =>
    match packet with
    | .video _ .error | .video _ .noFrame => exact ih hc hroom h
    | .other =>
      rw [cutLoop, if_neg (not_le.mpr hroom)] at h
      exact ih hc hroom h
    | .video pts (.frame picture) =>
      obtain ⟨d, hd, h⟩ := exists_of_bind_ok h
      obtain ⟨x, hshots, hcount, hsample⟩ := cutFrame_sample hc hd
      have hlength : x.chosen.toList.length ≤ 1 := Option.length_toList_le
      have hfirst : (sample config c.last ((pts, picture) :: packets.filterMap Packet.decoded)).take
          (config.maxFrames - c.encodeCount).toNat = x.chosen.toList ++
            (sample config d.last (packets.filterMap Packet.decoded)).take
              (config.maxFrames - d.encodeCount).toNat := by
        rw [hsample, List.take_append, List.take_of_length_le (by omega)]
        congr 2
        omega
      have hput : d.shots.filterMap Shot.chosen = c.shots.filterMap Shot.chosen ++ x.chosen.toList := by
        rw [hshots, List.filterMap_append]
        cases hx : x.chosen <;> simp [hx]
      change _ = _ ++ (sample config c.last ((pts, picture) :: _)).take _
      rw [hfirst, ← List.append_assoc, ← hput]
      split_ifs at h with hmax
      · obtain rfl : d = c' := Except.ok.inj h
        rw [Int.toNat_of_nonpos (by omega), List.take_zero, List.append_nil]
      · exact ih (by omega) (not_le.mp hmax) h

/-- Without room the loop ends at the first packet that is not skipped. -/
theorem cutLoop_sample_first (hc : c.encodeCount = 0) (hroom : config.maxFrames ≤ 0)
    (h : cutLoop config c packets = .ok c') :
    c'.shots.filterMap Shot.chosen = c.shots.filterMap Shot.chosen ++
      sample config c.last (((packets.dropWhile Packet.skipped).take 1).filterMap Packet.decoded) := by
  induction packets generalizing c with
  | nil =>
    obtain rfl : c = c' := Except.ok.inj h
    simp [sample]
  | cons packet packets ih =>
    match packet with
    | .video _ .error | .video _ .noFrame => exact ih hc h
    | .other =>
      rw [cutLoop, if_pos (hroom.trans_eq hc.symm)] at h
      obtain rfl : c = c' := Except.ok.inj h
      exact (List.append_nil _).symm
    | .video pts (.frame picture) =>
      obtain ⟨d, hd, h⟩ := exists_of_bind_ok h
      obtain ⟨x, hshots, hcount, hsample⟩ := cutFrame_sample hc.ge hd
      rw [if_pos (show d.encodeCount ≥ config.maxFrames by omega)] at h
      obtain rfl : d = c' := Except.ok.inj h
      have hput := hsample []
      simp only [sample, List.append_nil] at hput
      simp only [Packet.skipped, List.dropWhile_cons, Bool.false_eq_true, if_false, List.take_succ_cons,
        List.take_zero, List.filterMap_cons, Packet.decoded, List.filterMap_nil]
      rw [hsample, hshots, List.filterMap_append, sample, List.append_nil]
      cases hx : x.chosen <;> simp [hx]

theorem cutLoop_chosen (h : cutLoop config {} packets = .ok c) :
    c.shots.filterMap Shot.chosen = chosen config packets := by
  rw [chosen]
  split_ifs with hroom
  · have hsample := cutLoop_sample le_rfl hroom h
    rwa [List.filterMap_nil, List.nil_append, sub_zero] at hsample
  · exact cutLoop_sample_first rfl (not_lt.mp hroom) h

end Chosen

section Origin

/-- `base_pts` after the frames of these `pts`. -/
def latch (basePts pts : ℤ) : ℤ := if basePts < 0 then pts else basePts

def origin (pre : List (Shot γ)) : ℤ := (pre.map Shot.pts).foldl latch (-1)

theorem origin_concat (pre : List (Shot γ)) (x : Shot γ) : origin (pre ++ [x]) = latch (origin pre) x.pts := by
  simp [origin]

variable {pre : List (Shot γ)} {x : Shot γ}

theorem origin_negative (h : ∀ y ∈ pre, y.pts < 0) : origin pre < 0 := by
  induction pre using List.reverseRecOn with
  | nil => exact Int.negSucc_lt_zero 0
  | append_singleton pre y ih =>
    rw [origin_concat, latch, if_pos (ih fun z hz => h z (by simp [hz]))]
    exact h y (by simp)

/-- The first frame that is not before zero stays the origin. -/
theorem origin_found {q : ℤ} (h : (pre.map Shot.pts).find? (0 ≤ ·) = some q) : origin pre = q := by
  induction pre using List.reverseRecOn with
  | nil => cases h
  | append_singleton pre y ih =>
    rw [List.map_append, List.find?_append] at h
    rw [origin_concat, latch]
    cases hpre : (pre.map Shot.pts).find? (0 ≤ ·) with
    | some p =>
      rw [hpre] at h
      obtain rfl : p = q := Option.some.inj h
      have hp : 0 ≤ p := by simpa using List.find?_some hpre
      rw [ih hpre, if_neg (not_lt.mpr hp)]
    | none =>
      have hneg : ∀ z ∈ pre, z.pts < 0 := by simpa using hpre
      rw [if_pos (origin_negative hneg)]
      rw [hpre] at h
      simpa [eq_comm] using List.mem_of_find?_eq_some h

/-- The output is what became of the frames, and the time of a frame is counted from the
origin at it. -/
structure Timed (config : Config) (c : Cutter γ) : Prop where
  base : c.basePts = origin c.shots
  output : c.output = c.shots.filterMap Shot.info
  timed : EachAfter (fun pre x => ∀ frameInfo, x.info = some frameInfo →
    frameInfo.timeAt = (seconds config.timeBase (x.pts - origin (pre ++ [x]))).bmod (2 ^ 32)) c.shots

theorem Timed.start : Timed config ({} : Cutter γ) := ⟨rfl, rfl, eachAfter_nil⟩

theorem Timed.step (h : Timed config c) (hstep : cutFrame config c pts picture = .ok c') : Timed config c' := by
  have hbase : ∀ x : Shot γ, x.pts = pts → (c.count pts).basePts = origin (c.shots ++ [x]) := by
    rintro x rfl
    rw [origin_concat, Cutter.count, h.base, latch]
  obtain ⟨tried, -, ⟨frameInfo, -, -, htime, rfl⟩ | ⟨-, rfl⟩⟩ := cutFrame_cases hstep
  · refine ⟨hbase _ rfl, ?_, h.timed.concat fun info hinfo => ?_⟩
    · simp [Cutter.take, Cutter.count, h.output]
    · obtain rfl := Option.some.inj hinfo
      rw [htime]
      exact congrArg (fun b => (seconds config.timeBase (pts - b)).bmod (2 ^ 32)) (hbase _ rfl)
  · refine ⟨hbase _ rfl, ?_, h.timed.concat nofun⟩
    simp [Cutter.pass, Cutter.count, h.output]

end Origin

section Seconds

variable {d e : ℤ}

theorem seconds_of_nonneg (hd : 0 ≤ d) : seconds timeBase d = d * timeBase.num / timeBase.den :=
  Int.tdiv_eq_ediv_of_nonneg (Int.mul_nonneg hd timeBase.num_pos.le)

@[simp] theorem seconds_zero (timeBase : AVRational) : seconds timeBase 0 = 0 := by
  simp [seconds]

theorem seconds_mono (hd : 0 ≤ d) (hde : d ≤ e) : seconds timeBase d ≤ seconds timeBase e := by
  rw [seconds_of_nonneg hd, seconds_of_nonneg (hd.trans hde)]
  exact Int.ediv_le_ediv timeBase.den_pos (Int.mul_le_mul_of_nonneg_right hde timeBase.num_pos.le)

theorem seconds_nonneg (hd : 0 ≤ d) : 0 ≤ seconds timeBase d := by
  rw [← seconds_zero timeBase]
  exact seconds_mono le_rfl hd

theorem seconds_apart (timeBase : AVRational) (hd : 0 ≤ d) (he : 0 ≤ e) :
    |(seconds timeBase e - seconds timeBase d) * timeBase.den - (e - d) * timeBase.num| < timeBase.den := by
  rw [seconds_of_nonneg hd, seconds_of_nonneg he]
  have hpos := timeBase.den_pos
  have hd1 := Int.emod_add_mul_ediv (d * timeBase.num) timeBase.den
  have he1 := Int.emod_add_mul_ediv (e * timeBase.num) timeBase.den
  have hd2 := Int.emod_nonneg (d * timeBase.num) hpos.ne'
  have he2 := Int.emod_nonneg (e * timeBase.num) hpos.ne'
  have hd3 := Int.emod_lt_of_pos (d * timeBase.num) hpos
  have he3 := Int.emod_lt_of_pos (e * timeBase.num) hpos
  rw [abs_lt]
  constructor <;> linarith

theorem seconds_eq_iff (hd : 0 ≤ d) (hde : d ≤ e) : seconds timeBase d = seconds timeBase e ↔
    ∀ k : ℤ, k * timeBase.den ≤ e * timeBase.num → k * timeBase.den ≤ d * timeBase.num := by
  have hmono := @seconds_mono timeBase d e hd hde
  rw [seconds_of_nonneg hd, seconds_of_nonneg (hd.trans hde)] at hmono ⊢
  simp only [← Int.le_ediv_iff_mul_le timeBase.den_pos]
  exact ⟨fun h k hk => hk.trans_eq h.symm, fun h => le_antisymm hmono (h _ le_rfl)⟩

theorem seconds_eq_zero_iff (hd : 0 ≤ d) : 0 = seconds timeBase d ↔ d * timeBase.num < timeBase.den := by
  have hnonneg := @seconds_nonneg timeBase d hd
  rw [seconds_of_nonneg hd] at hnonneg ⊢
  rw [← one_mul timeBase.den, ← Int.ediv_lt_iff_lt_mul timeBase.den_pos, one_mul]
  omega

end Seconds

section Relative

variable {all : List ℤ} {pre post : List (Shot γ)} {x : Shot γ}

/-- The frames put out are stamped with the times since `pts0`: these do not decrease, and
they are apart as the frames are, to within a second. -/
structure Relative (timeBase : AVRational) (pts0 : ℤ) (frames : List (ℤ × γ)) (output : List (CutFrameInfo γ)) :
    Prop where
  stamped : output = frames.map fun x => ⟨x.2, seconds timeBase (x.1 - pts0)⟩
  apart : (frames.zip output).Pairwise fun x y => x.2.timeAt ≤ y.2.timeAt ∧
    |(y.2.timeAt - x.2.timeAt) * timeBase.den - (y.1.1 - x.1.1) * timeBase.num| < timeBase.den

/-- The frames begin with `pts0` and are in the order of their times, which fit into an `int`. -/
structure InOrder (timeBase : AVRational) (pts0 : ℤ) (all : List ℤ) : Prop where
  first : all.head? = some pts0
  sorted : all.Pairwise (· ≤ ·)
  fits : ∀ pts ∈ all, seconds timeBase (pts - pts0) < 2 ^ 31

theorem InOrder.from_first (h : InOrder timeBase pts0 all) (hpts : pts ∈ all) : pts0 ≤ pts := by
  obtain ⟨rest, rfl⟩ := List.head?_eq_some_iff.mp h.first
  obtain rfl | hpts := List.mem_cons.mp hpts
  · exact le_rfl
  · exact (List.pairwise_cons.mp h.sorted).1 pts hpts

/-- Frames in order that are stamped with the times since `pts0` keep the distances. -/
theorem InOrder.relative (h : InOrder timeBase pts0 all) {frames : List (ℤ × γ)}
    (hframes : (frames.map Prod.fst).Sublist all) :
    Relative timeBase pts0 frames (frames.map fun x => ⟨x.2, seconds timeBase (x.1 - pts0)⟩) := by
  refine ⟨rfl, ?_⟩
  rw [← List.map_prod_left_eq_zip, List.pairwise_map]
  refine (List.pairwise_map.mp (h.sorted.sublist hframes)).imp_of_mem fun {x y} hx hy hxy => ?_
  have hx0 : 0 ≤ x.1 - pts0 := sub_nonneg.mpr (h.from_first (hframes.subset (List.mem_map_of_mem hx)))
  have hy0 : 0 ≤ y.1 - pts0 := sub_nonneg.mpr (h.from_first (hframes.subset (List.mem_map_of_mem hy)))
  refine ⟨seconds_mono hx0 (by omega), ?_⟩
  have hapart := seconds_apart timeBase hx0 hy0
  rwa [sub_sub_sub_cancel_right] at hapart

/-- The origin at a frame before zero is the frame itself; after that it is the first frame
that is not before zero. -/
theorem InOrder.origin_cases (h : InOrder timeBase pts0 all) (hall : pre.map Shot.pts ++ [x.pts] <+: all) :
    x.pts < 0 ∧ origin (pre ++ [x]) = x.pts ∨
      0 ≤ x.pts ∧ all.find? (0 ≤ ·) = some (origin (pre ++ [x])) ∧ origin (pre ++ [x]) ≤ x.pts := by
  have hsorted := List.pairwise_append.mp (h.sorted.sublist hall.sublist)
  have hbefore : ∀ y ∈ pre, y.pts ≤ x.pts := fun y hy =>
    hsorted.2.2 y.pts (List.mem_map_of_mem hy) x.pts (List.mem_singleton_self _)
  obtain hx | hx := lt_or_ge x.pts 0
  · refine .inl ⟨hx, ?_⟩
    rw [origin_concat, latch, if_pos (origin_negative fun y hy => (hbefore y hy).trans_lt hx)]
  · right
    have hsome : (((pre ++ [x]).map Shot.pts).find? (0 ≤ ·)).isSome := by
      rw [List.find?_isSome]
      exact ⟨x.pts, by simp, by simpa using hx⟩
    obtain ⟨q, hq⟩ := Option.isSome_iff_exists.mp hsome
    obtain ⟨y, hy, hyq⟩ := List.mem_map.mp (List.mem_of_find?_eq_some hq)
    rw [origin_found hq]
    refine ⟨hx, ?_, ?_⟩
    · obtain ⟨rest, rfl⟩ := hall
      rw [List.map_append, List.map_singleton] at hq
      rw [List.find?_append, hq, Option.some_or]
    · rw [← hyq]
      obtain hy | rfl : y ∈ pre ∨ y = x := by simpa using hy
      · exact hbefore y hy
      · exact le_rfl

/-- The origin lies between the first frame and the one at hand. -/
theorem InOrder.origin_between (h : InOrder timeBase pts0 all) (hall : pre.map Shot.pts ++ [x.pts] <+: all) :
    pts0 ≤ origin (pre ++ [x]) ∧ origin (pre ++ [x]) ≤ x.pts := by
  obtain ⟨-, horigin⟩ | ⟨-, hfind, hle⟩ := h.origin_cases hall
  · rw [horigin]
    exact ⟨h.from_first (hall.subset (by simp)), le_rfl⟩
  · exact ⟨h.from_first (List.mem_of_find?_eq_some hfind), hle⟩

/-- Nothing is lost in narrowing the seconds since the origin. -/
theorem InOrder.bmod_seconds (h : InOrder timeBase pts0 all) (hall : pre.map Shot.pts ++ [x.pts] <+: all) :
    (seconds timeBase (x.pts - origin (pre ++ [x]))).bmod (2 ^ 32) =
      seconds timeBase (x.pts - origin (pre ++ [x])) := by
  obtain ⟨hfrom, hle⟩ := h.origin_between hall
  have hfits := h.fits x.pts (hall.subset (by simp))
  have hnonneg : 0 ≤ seconds timeBase (x.pts - origin (pre ++ [x])) := seconds_nonneg (by omega)
  have hmono : seconds timeBase (x.pts - origin (pre ++ [x])) ≤ seconds timeBase (x.pts - pts0) :=
    seconds_mono (by omega) (by omega)
  exact Int.bmod_eq_of_le_mul_two (by omega) (by omega)

/-- When it does not show that the origin has moved from `pts0`. A frame before zero comes
within a second; for one that does not, no whole second falls between the two times since
`pts0` and since `start`, the first frame that is not before zero. -/
def Unmoved (timeBase : AVRational) (start : Option ℤ) (pts0 pts : ℤ) : Prop :=
  if pts < 0 then (pts - pts0) * timeBase.num < timeBase.den
  else ∀ q ∈ start, ∀ k : ℤ, k * timeBase.den ≤ (pts - pts0) * timeBase.num →
    k * timeBase.den ≤ (pts - q) * timeBase.num

theorem InOrder.unmoved_iff (h : InOrder timeBase pts0 all) (hall : pre.map Shot.pts ++ [x.pts] <+: all) :
    seconds timeBase (x.pts - origin (pre ++ [x])) = seconds timeBase (x.pts - pts0) ↔
      Unmoved timeBase (all.find? (0 ≤ ·)) pts0 x.pts := by
  obtain ⟨hfrom, hle⟩ := h.origin_between hall
  obtain ⟨hneg, horigin⟩ | ⟨hpos, hfind, -⟩ := h.origin_cases hall
  · rw [horigin] at hfrom ⊢
    rw [sub_self, seconds_zero, seconds_eq_zero_iff (sub_nonneg.mpr hfrom), Unmoved, if_pos hneg]
  · rw [hfind, Unmoved, if_neg (not_lt.mpr hpos), seconds_eq_iff (by omega) (by omega)]
    simp

theorem InOrder.unmoved_of_nonneg (h : InOrder timeBase pts0 all) (hpos : 0 ≤ pts0) (hpts : pts ∈ all) :
    Unmoved timeBase (all.find? (0 ≤ ·)) pts0 pts := by
  have hfrom := h.from_first hpts
  obtain ⟨rest, rfl⟩ := List.head?_eq_some_iff.mp h.first
  rw [List.find?_cons_of_pos (by simpa using hpos), Unmoved, if_neg (by omega)]
  intro q hq k hk
  rwa [← Option.some.inj hq]

def decodedPts (packets : List (Packet γ)) : List ℤ := (packets.filterMap Packet.decoded).map Prod.fst

/-- Stamping anew changes nothing exactly if every time is the new one. -/
theorem restamp_iff {time : ℤ → ℤ} {shots : List (Shot γ)} :
    shots.filterMap Shot.info = (shots.filterMap Shot.chosen).map (fun x => ⟨x.2, time x.1⟩) ↔
      ∀ x ∈ shots, ∀ frameInfo, x.info = some frameInfo → frameInfo.timeAt = time x.pts := by
  induction shots with
  | nil => simp
  | cons x shots ih =>
    cases hx : x.info with
    | none => simp [hx, Shot.chosen, ih]
    | some frameInfo =>
      have hchosen : x.chosen = some (x.pts, frameInfo.content) := by rw [Shot.chosen, hx, Option.map_some]
      rw [List.filterMap_cons_some hx, List.filterMap_cons_some hchosen, List.map_cons, List.cons_eq_cons, ih,
        List.forall_mem_cons, hx, CutFrameInfo.ext_iff]
      simp

theorem chosen_sublist (shots : List (Shot γ)) :
    ((shots.filterMap Shot.chosen).map Prod.fst).Sublist (shots.map Shot.pts) := by
  induction shots with
  | nil => exact .slnil
  | cons x shots ih =>
    cases hx : x.info with
    | none => simpa [Shot.chosen, hx] using ih.cons x.pts
    | some frameInfo => simpa [Shot.chosen, hx] using ih

/-- The time of a frame is the one since `pts0` where it does not show that the origin has moved. -/
theorem Timed.time_iff (hc : Timed config c) (hord : InOrder config.timeBase pts0 all)
    (hshots : c.shots.map Shot.pts <+: all) (hx : x ∈ c.shots) {frameInfo : CutFrameInfo γ}
    (hinfo : x.info = some frameInfo) :
    frameInfo.timeAt = seconds config.timeBase (x.pts - pts0) ↔
      Unmoved config.timeBase (all.find? (0 ≤ ·)) pts0 x.pts := by
  obtain ⟨pre, post, heq⟩ := List.append_of_mem hx
  have hprefix : pre.map Shot.pts ++ [x.pts] <+: all := by
    refine .trans ⟨post.map Shot.pts, ?_⟩ hshots
    simp [heq]
  rw [hc.timed pre x post heq frameInfo hinfo, hord.bmod_seconds hprefix, hord.unmoved_iff hprefix]

theorem Timed.stamped_iff (hc : Timed config c) (hord : InOrder config.timeBase pts0 all)
    (hshots : c.shots.map Shot.pts <+: all) :
    c.output = (c.shots.filterMap Shot.chosen).map (fun x => ⟨x.2, seconds config.timeBase (x.1 - pts0)⟩) ↔
      ∀ x ∈ c.shots.filterMap Shot.chosen, Unmoved config.timeBase (all.find? (0 ≤ ·)) pts0 x.1 := by
  rw [hc.output, @restamp_iff γ (fun pts => seconds config.timeBase (pts - pts0)) c.shots,
    List.forall_mem_filterMap]
  refine forall₂_congr fun x hx => ?_
  cases hinfo : x.info with
  | none => simp [Shot.chosen, hinfo]
  | some frameInfo => simpa [Shot.chosen, hinfo] using hc.time_iff hord hshots hx hinfo

/-- The frames are stamped with the times since the first decoded one exactly if that is not
before zero, or for no frame put out it shows that the origin has moved. -/
theorem cutFrames_relative_iff (config : Config) (packets : List (Packet γ)) (output : List (CutFrameInfo γ))
    (h : cutFrames config true packets = .ok (true, output)) (pts0 : ℤ)
    (hfirst : (decodedPts packets).head? = some pts0) (hsorted : (decodedPts packets).Pairwise (· ≤ ·))
    (hfits : ∀ pts ∈ decodedPts packets, seconds config.timeBase (pts - pts0) < 2 ^ 31) :
    Relative config.timeBase pts0 (chosen config packets) output ↔
      0 ≤ pts0 ∨ ∀ x ∈ chosen config packets,
        Unmoved config.timeBase ((decodedPts packets).find? (0 ≤ ·)) pts0 x.1 := by
  have hord : InOrder config.timeBase pts0 (decodedPts packets) := ⟨hfirst, hsorted, hfits⟩
  obtain ⟨c, hloop, hout⟩ := exists_of_bind_ok h
  obtain rfl : c.output = output := congrArg Prod.snd (Except.ok.inj hout)
  obtain ⟨hc, done, rest, hsplit, hdone, -⟩ :=
    cutLoop_rule (J := Timed config) (fun _ => id)
      (fun _ _ _ _ hc hstep => ⟨hc.step hstep, fun _ => hc.step hstep⟩) hloop Timed.start
  have hshots : c.shots.map Shot.pts <+: decodedPts packets := by
    rw [List.map_nil, List.nil_append] at hdone
    refine ⟨rest.map Prod.fst, ?_⟩
    rw [decodedPts, hsplit, ← hdone, List.map_append, List.map_map]
    rfl
  have hstamped := hc.stamped_iff hord hshots
  rw [cutLoop_chosen hloop] at hstamped
  have hchosen : ((chosen config packets).map Prod.fst).Sublist (decodedPts packets) := by
    rw [← cutLoop_chosen hloop]
    exact (chosen_sublist c.shots).trans hshots.sublist
  constructor
  · intro hrel
    exact .inr (hstamped.mp hrel.stamped)
  · intro hcond
    rw [hstamped.mpr (hcond.elim (fun hpos x hx => ?_) id)]
    · exact hord.relative hchosen
    · exact hord.unmoved_of_nonneg hpos (hchosen.subset (List.mem_map_of_mem hx))

def everyFrame : Config := ⟨milliseconds, 1, 0, 10⟩

theorem cutFrames_relative_zero :
    cutFrames everyFrame true [.video 0 (.frame (some 'a')), .video 1500 (.frame (some 'b'))] =
        .ok (true, [⟨'a', 0⟩, ⟨'b', 1⟩]) ∧
      Relative milliseconds 0 [(0, 'a'), (1500, 'b')] [⟨'a', 0⟩, ⟨'b', 1⟩] :=
  ⟨rfl, (cutFrames_relative_iff everyFrame
    [.video 0 (.frame (some 'a')), .video 1500 (.frame (some 'b'))] _ rfl 0 rfl (by decide) (by decide)).mpr
      (.inl le_rfl)⟩

/-- Two seconds after a first frame at -1.5 seconds, the time is still zero. -/
theorem cutFrames_moves_origin :
    cutFrames everyFrame true [.video (-1500) (.frame (some 'a')), .video 500 (.frame (some 'b'))] =
        .ok (true, [⟨'a', 0⟩, ⟨'b', 0⟩]) ∧
      chosen everyFrame [.video (-1500) (.frame (some 'a')), .video 500 (.frame (some 'b'))] =
        [(-1500, 'a'), (500, 'b')] ∧
      seconds milliseconds (500 - -1500) = 2 :=
  ⟨rfl, rfl, rfl⟩

end Relative

end CppBase.Mediaproc.CutFrames
