import CppBase.Proofs.AudioSegments
import CppBase.Spec.CutFrames

/-! What a round of `cutFrames` does to a decoded frame, and the rule for its loop. -/

namespace CppBase.Mediaproc.CutFrames

open CppBase.Lib AudioSplit

variable {γ : Type} {config : Config} {c c' : Cutter γ} {pts : ℤ} {picture : Option γ}

section Rounds

/-- The state in which a frame is judged: it is counted, and `base_pts` is set. -/
def Cutter.count (c : Cutter γ) (pts : ℤ) : Cutter γ :=
  { c with decodeCount := c.decodeCount + 1, basePts := if c.basePts < 0 then pts else c.basePts }

def Cutter.take (c : Cutter γ) (pts : ℤ) (frameInfo : CutFrameInfo γ) : Cutter γ :=
  { c with
    encodeCount := c.encodeCount + 1
    lastPts := pts
    lastEncodeIndex := c.decodeCount
    output := c.output ++ [frameInfo]
    shots := c.shots ++ [⟨pts, some frameInfo.content, true, some frameInfo⟩] }

def Cutter.pass (c : Cutter γ) (pts : ℤ) (picture : Option γ) (tried : Bool) : Cutter γ :=
  { c with shots := c.shots ++ [⟨pts, picture, tried, none⟩] }

/-- The last frame put out: its `pts`, and how many frames ago it was. -/
def Cutter.last (c : Cutter γ) : Option (ℤ × ℤ) :=
  if c.encodeCount = 0 then none else some (c.lastPts, c.decodeCount - c.lastEncodeIndex)

/-- A frame is to be encoded if the last one put out, if any, is an interval away. Of two
intervals that of the frames counts. -/
def Config.Wants (config : Config) (last : Option (ℤ × ℤ)) (pts : ℤ) : Prop :=
  if 0 < config.frameInterval then ∀ a ∈ last, config.frameInterval ≤ a.2
  else 0 < config.timeInterval ∧ ∀ a ∈ last, Due config.timeBase config.timeInterval (pts - a.1)

instance (last : Option (ℤ × ℤ)) : Decidable (config.Wants last pts) := by
  unfold Config.Wants
  infer_instance

/-- `d` ticks of the time base in seconds, rounded toward zero. -/
def seconds (timeBase : AVRational) (d : ℤ) : ℤ := (d * timeBase.num).tdiv timeBase.den

theorem int64_ok {δ : Type} {x y : ℤ} (h : int64 x = (.ok y : Except (Stop δ) ℤ)) : y = x := by
  obtain herr | hok := int64_cases δ x
  · rw [herr] at h
    cases h
  · exact Except.ok.inj (h.symm.trans hok)

theorem shouldEncode_iff {tried : Bool} (h : shouldEncode config c pts = .ok tried) :
    tried = true ↔ config.Wants c.last pts := by
  unfold shouldEncode at h
  unfold Config.Wants Cutter.last
  by_cases hframe : 0 < config.frameInterval
  · rw [if_pos hframe] at h ⊢
    obtain rfl := Except.ok.inj h
    by_cases hzero : c.encodeCount = 0 <;> simp [hzero]
  rw [if_neg hframe] at h ⊢
  by_cases htime : 0 < config.timeInterval
  · rw [if_pos htime] at h
    obtain ⟨diffPts, hdiff, h⟩ := exists_of_bind_ok h
    obtain rfl := int64_ok hdiff
    split_ifs at h ⊢ with hzero
    · obtain rfl := Except.ok.inj h
      simp [htime]
    · obtain ⟨order, horder, h⟩ := exists_of_bind_ok h
      obtain rfl := Except.ok.inj h
      obtain herr | ⟨r, hr, hdue⟩ :=
        compareTimestamp_cases Unit config.timeBase config.timeInterval (pts - c.lastPts)
      · rw [herr] at horder
        cases horder
      · obtain rfl : r = order := Except.ok.inj (hr.symm.trans horder)
        simp [htime, ← hdue]
  · rw [if_neg htime] at h
    obtain rfl := Except.ok.inj h
    simp [htime]

theorem coverPts2sec_ok {timeBase : AVRational} {d t : ℤ} (h : coverPts2sec d timeBase = .ok t) :
    t = (seconds timeBase d).bmod (2 ^ 32) := by
  rw [coverPts2sec, if_neg (not_le.mpr timeBase.den_pos)] at h
  obtain ⟨ticks, hticks, heq⟩ := exists_of_bind_ok h
  rw [int64_ok hticks] at heq
  exact (Except.ok.inj heq).symm

theorem cutFrame_cases (h : cutFrame config c pts picture = .ok c') :
    ∃ tried, shouldEncode config (c.count pts) pts = .ok tried ∧
      ((∃ frameInfo, tried = true ∧ picture = some frameInfo.content ∧
          frameInfo.timeAt = (seconds config.timeBase (pts - (c.count pts).basePts)).bmod (2 ^ 32) ∧
          c' = (c.count pts).take pts frameInfo) ∨
        (tried = true → picture = none) ∧ c' = (c.count pts).pass pts picture tried) := by
  obtain ⟨tried, htried, h⟩ := exists_of_bind_ok h
  refine ⟨tried, htried, ?_⟩
  cases tried with
  | false => exact .inr ⟨nofun, (Except.ok.inj h).symm⟩
  | true =>
    cases picture with
    | none => exact .inr ⟨fun _ => rfl, (Except.ok.inj h).symm⟩
    | some content =>
      obtain ⟨ts, hts, h⟩ := exists_of_bind_ok h
      obtain ⟨timeAt, htime, h⟩ := exists_of_bind_ok h
      rw [int64_ok hts] at htime
      exact .inl ⟨⟨content, timeAt⟩, rfl, rfl, coverPts2sec_ok htime, (Except.ok.inj h).symm⟩

end Rounds

section Loop

def Packet.decoded : Packet γ → Option (ℤ × Option γ)
  | .video pts (.frame picture) => some (pts, picture)
  | _ => none

def Shot.frame (x : Shot γ) : ℤ × Option γ := (x.pts, x.picture)

theorem cutFrame_shots (h : cutFrame config c pts picture = .ok c') :
    ∃ x, c'.shots = c.shots ++ [x] ∧ x.frame = (pts, picture) := by
  obtain ⟨tried, -, ⟨frameInfo, -, rfl, -, rfl⟩ | ⟨-, rfl⟩⟩ := cutFrame_cases h
  · exact ⟨_, rfl, rfl⟩
  · exact ⟨_, rfl, rfl⟩

theorem cutFrame_count (h : cutFrame config c pts picture = .ok c') : c'.encodeCount ≤ c.encodeCount + 1 := by
  obtain ⟨tried, -, ⟨frameInfo, -, -, -, rfl⟩ | ⟨-, rfl⟩⟩ := cutFrame_cases h
  · exact le_rfl
  · exact (Int.lt_succ c.encodeCount).le

/-- `I` holds before every round and `J` where the loop is left; all frames are judged up to
the one at which `maxFrames` is reached. -/
theorem cutLoop_rule {I J : Cutter γ → Prop} {packets : List (Packet γ)} (hend : ∀ c, I c → J c)
    (hstep : ∀ c pts picture c', I c → cutFrame config c pts picture = .ok c' →
      J c' ∧ (c'.encodeCount < config.maxFrames → I c'))
    (h : cutLoop config c packets = .ok c') (hc : I c) :
    J c' ∧ ∃ done rest, packets.filterMap Packet.decoded = done ++ rest ∧
      c'.shots.map Shot.frame = c.shots.map Shot.frame ++ done ∧
      (rest = [] ∨ config.maxFrames ≤ c'.encodeCount) := by
  induction packets generalizing c with
  | nil =>
    obtain rfl : c = c' := Except.ok.inj h
    exact ⟨hend c hc, [], [], rfl, by simp, .inl rfl⟩
  | cons packet packets ih =>
    match packet with
    | .video _ .error | .video _ .noFrame => exact ih h hc
    | .other =>
      rw [cutLoop] at h
      split_ifs at h with hmax
      · obtain rfl : c = c' := Except.ok.inj h
        exact ⟨hend c hc, [], _, rfl, by simp, .inr hmax⟩
      · exact ih h hc
    | .video pts (.frame picture) =>
      obtain ⟨d, hd, h⟩ := exists_of_bind_ok h
      obtain ⟨x, hshots, hframe⟩ := cutFrame_shots hd
      obtain ⟨hJ, hI⟩ := hstep c pts picture d hc hd
      split_ifs at h with hmax
      · obtain rfl : d = c' := Except.ok.inj h
        exact ⟨hJ, [(pts, picture)], _, rfl, by simp [hshots, hframe], .inr hmax⟩
      · obtain ⟨hJ', done, rest, hsplit, hdone, hrest⟩ := ih h (hI (not_le.mp hmax))
        refine ⟨hJ', (pts, picture) :: done, rest, ?_, ?_, hrest⟩
        · exact congrArg ((pts, picture) :: ·) hsplit
        · rw [hdone, hshots, List.map_append, List.map_singleton, hframe, List.append_assoc,
            List.singleton_append]

end Loop

end CppBase.Mediaproc.CutFrames
