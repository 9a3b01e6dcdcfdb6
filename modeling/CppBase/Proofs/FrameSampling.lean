import CppBase.Lib.History
import CppBase.Proofs.CutShots

/-! Which frames `cutFrames` puts out. The counters always tell how far back the last frame
put out lies, whatever fails in between, so each frame is judged by its distance to it. -/

namespace CppBase.Mediaproc.CutFrames

open CppBase.Lib AudioSplit

variable {γ : Type} {config : Config} {c c' : Cutter γ} {pts : ℤ} {picture : Option γ}

section Judging

def Shot.Taken (x : Shot γ) : Prop := x.info.isSome = true

/-- A frame `n` frames after `a` and with `pts` is an interval away from it. -/
def Apart (config : Config) (a : Shot γ) (n pts : ℤ) : Prop :=
  (0 < config.frameInterval → config.frameInterval ≤ n) ∧
    (0 < config.timeInterval → Due config.timeBase config.timeInterval (pts - a.pts))

def Config.OneInterval (config : Config) : Prop :=
  0 < config.frameInterval ∧ config.timeInterval ≤ 0 ∨ config.frameInterval ≤ 0 ∧ 0 < config.timeInterval

theorem Config.OneInterval.wants_none (h : config.OneInterval) : config.Wants none pts := by
  obtain ⟨hframe, -⟩ | ⟨-, htime⟩ := h
  · simp [Config.Wants, hframe]
  · simp [Config.Wants, htime]

theorem Config.OneInterval.wants_some_iff (h : config.OneInterval) {a : Shot γ} {n : ℤ} :
    config.Wants (some (a.pts, n)) pts ↔ Apart config a n pts := by
  obtain ⟨hframe, htime⟩ | ⟨hframe, htime⟩ := h
  · simp [Config.Wants, Apart, hframe, not_lt.mpr htime]
  · simp [Config.Wants, Apart, htime, not_lt.mpr hframe]

/-- How a frame is judged after those before it: it is tried if the last one put out, if
any, is an interval away, and put out if it can be encoded then. -/
structure Judged (config : Config) (pre : List (Shot γ)) (x : Shot γ) : Prop where
  tried : x.tried = true ↔ ∀ a n, LastAgo Shot.Taken pre a n → Apart config a n x.pts
  taken : x.Taken ↔ x.tried = true ∧ x.picture.isSome
  content : ∀ frameInfo, x.info = some frameInfo → x.picture = some frameInfo.content

/-- The counters agree with what became of the frames. -/
structure Sampled (config : Config) (c : Cutter γ) : Prop where
  decoded : c.decodeCount = c.shots.length
  output : c.output = c.shots.filterMap Shot.info
  encoded : c.encodeCount = c.output.length
  last : ∀ a n, LastAgo Shot.Taken c.shots a n → c.lastPts = a.pts ∧ c.decodeCount + 1 - c.lastEncodeIndex = n
  judged : EachAfter (Judged config) c.shots

theorem Sampled.start : Sampled config ({} : Cutter γ) where
  decoded := rfl
  output := rfl
  encoded := rfl
  last a n h := by
    obtain ⟨x, hx, -⟩ := h.mem
    cases hx
  judged := eachAfter_nil

theorem Sampled.count_zero_iff (h : Sampled config c) :
    c.encodeCount = 0 ↔ ∀ a n, ¬ LastAgo Shot.Taken c.shots a n := by
  have hzero : c.encodeCount = 0 ↔ ∀ x ∈ c.shots, x.info = none := by
    rw [h.encoded, Int.natCast_eq_zero, List.length_eq_zero_iff, h.output, List.filterMap_eq_nil_iff]
  rw [hzero]
  constructor
  · intro hnone a n hlast
    obtain ⟨x, hx, htaken⟩ := hlast.mem
    rw [Shot.Taken, hnone x hx] at htaken
    cases htaken
  · intro hno x hx
    by_contra hsome
    obtain ⟨a, n, hlast⟩ := exists_lastAgo (p := Shot.Taken) ⟨x, hx, Option.isSome_iff_ne_none.mpr hsome⟩
    exact hno a n hlast

/-- What the counters decide is what the distance to the last frame put out does. -/
theorem Sampled.tried_iff (hone : config.OneInterval) (h : Sampled config c) {tried : Bool}
    (htried : shouldEncode config (c.count pts) pts = .ok tried) :
    tried = true ↔ ∀ a n, LastAgo Shot.Taken c.shots a n → Apart config a n pts := by
  rw [shouldEncode_iff htried]
  change config.Wants (if c.encodeCount = 0 then none
    else some (c.lastPts, c.decodeCount + 1 - c.lastEncodeIndex)) pts ↔ _
  by_cases hzero : c.encodeCount = 0
  · rw [if_pos hzero]
    exact iff_of_true hone.wants_none fun a n han => absurd han (h.count_zero_iff.mp hzero a n)
  · rw [if_neg hzero]
    have hlast := mt h.count_zero_iff.mpr hzero
    push Not at hlast
    obtain ⟨a, n, han⟩ := hlast
    obtain ⟨hpts, hn⟩ := h.last a n han
    rw [hpts, hn, hone.wants_some_iff]
    constructor
    · intro hapart b m hbm
      obtain ⟨hpts', hm⟩ := h.last b m hbm
      rwa [Apart, ← hpts', ← hm, hpts, hn]
    · intro hall
      exact hall a n han

theorem Sampled.step (hone : config.OneInterval) (h : Sampled config c)
    (hstep : cutFrame config c pts picture = .ok c') : Sampled config c' := by
  obtain ⟨tried, htried, ⟨frameInfo, rfl, rfl, -, rfl⟩ | ⟨hnone, rfl⟩⟩ := cutFrame_cases hstep
  · refine ⟨?_, ?_, ?_, fun a n hlast => ?_, h.judged.concat ⟨h.tried_iff hone htried, ?_, ?_⟩⟩
    · simp [Cutter.take, Cutter.count, h.decoded]
    · simp [Cutter.take, Cutter.count, h.output]
    · simp [Cutter.take, Cutter.count, h.encoded]
    · obtain ⟨rfl, rfl⟩ := LastAgo.concat_pos hlast rfl
      exact ⟨rfl, by simp [Cutter.take]⟩
    · simp [Shot.Taken]
    · intro info hinfo
      rw [Option.some.inj hinfo]
  · refine ⟨?_, ?_, h.encoded, fun a n hlast => ?_, h.judged.concat ⟨h.tried_iff hone htried, ?_, nofun⟩⟩
    · simp [Cutter.pass, Cutter.count, h.decoded]
    · simp [Cutter.pass, Cutter.count, h.output]
    · obtain ⟨m, hm, rfl⟩ := LastAgo.concat_neg hlast Bool.false_ne_true
      obtain ⟨hpts, hdist⟩ := h.last a m hm
      refine ⟨hpts, ?_⟩
      simp only [Cutter.pass, Cutter.count]
      omega
    · cases picture with
      | none => simp [Shot.Taken]
      | some content => simp [Shot.Taken, show tried ≠ true from fun ht => nomatch hnone ht]

end Judging

section Sampling

/-- All along, and at most `maxFrames` are put out: the loop is left when there are as many. -/
theorem cutLoop_sampled (hmax : 1 ≤ config.maxFrames) (hone : config.OneInterval) {packets : List (Packet γ)}
    (h : cutLoop config {} packets = .ok c) :
    (Sampled config c ∧ c.encodeCount ≤ config.maxFrames) ∧
      ∃ done rest, packets.filterMap Packet.decoded = done ++ rest ∧
        c.shots.map Shot.frame = ({} : Cutter γ).shots.map Shot.frame ++ done ∧
        (rest = [] ∨ config.maxFrames ≤ c.encodeCount) := by
  refine cutLoop_rule (I := fun c => Sampled config c ∧ c.encodeCount < config.maxFrames)
    (J := fun c => Sampled config c ∧ c.encodeCount ≤ config.maxFrames) ?_ ?_ h ⟨Sampled.start, hmax⟩
  · rintro c ⟨hc, hlt⟩
    exact ⟨hc, hlt.le⟩
  · rintro c pts picture c' ⟨hc, hlt⟩ hstep
    have hc' := hc.step hone hstep
    exact ⟨⟨hc', (cutFrame_count hstep).trans (Int.add_one_le_of_lt hlt)⟩, fun hlt' => ⟨hc', hlt'⟩⟩

/-- The frames put out are sampled at the interval: each is an interval away from the one
before, and a frame that was not even tried is not. -/
theorem cutLoop_samples (config : Config) (hmax : 1 ≤ config.maxFrames) (hone : config.OneInterval)
    (packets : List (Packet γ)) (c : Cutter γ) (h : cutLoop config {} packets = .ok c) :
    cutFrames config true packets = .ok (true, c.output) ∧ c.output.length ≤ config.maxFrames ∧
      (∃ rest, packets.filterMap Packet.decoded = c.shots.map Shot.frame ++ rest ∧
        (rest = [] ∨ c.output.length = config.maxFrames)) ∧
      c.output = c.shots.filterMap Shot.info ∧
      (∀ x ∈ c.shots, ∀ frameInfo, x.info = some frameInfo → x.picture = some frameInfo.content) ∧
      (∀ x rest, c.shots = x :: rest → x.tried = true) ∧
      (∀ x ∈ c.shots, x.Taken ↔ x.tried = true ∧ x.picture.isSome) ∧
      (∀ pre a mid b post, c.shots = pre ++ a :: mid ++ b :: post → a.Taken → (∀ x ∈ mid, ¬ x.Taken) → b.Taken →
        Apart config a (mid.length + 1) b.pts) ∧
      ∀ pre x post, c.shots = pre ++ x :: post → x.tried = false →
        ∃ pre' a mid, pre = pre' ++ a :: mid ∧ a.Taken ∧ (∀ y ∈ mid, ¬ y.Taken) ∧
          ¬ Apart config a (mid.length + 1) x.pts := by
  obtain ⟨⟨hc, hbound⟩, done, rest, hsplit, hdone, hrest⟩ := cutLoop_sampled hmax hone h
  rw [hc.encoded] at hbound hrest
  rw [List.map_nil, List.nil_append] at hdone
  refine ⟨by simp [cutFrames, h], hbound, ⟨rest, hdone ▸ hsplit, hrest.imp_right fun h => le_antisymm hbound h⟩,
    hc.output, ?_, ?_, ?_, ?_, ?_⟩
  · intro x hx
    obtain ⟨pre, post, heq⟩ := List.append_of_mem hx
    exact (hc.judged pre x post heq).content
  · intro x rest heq
    refine (hc.judged [] x rest heq).tried.mpr fun a n hlast => ?_
    obtain ⟨y, hy, -⟩ := hlast.mem
    cases hy
  · intro x hx
    obtain ⟨pre, post, heq⟩ := List.append_of_mem hx
    exact (hc.judged pre x post heq).taken
  · intro pre a mid b post heq ha hmid hb
    have hjudged := hc.judged (pre ++ a :: mid) b post heq
    exact hjudged.tried.mp (hjudged.taken.mp hb).1 a _ ⟨pre, mid, rfl, ha, hmid, rfl⟩
  · intro pre x post heq hx
    have htried := mt (hc.judged pre x post heq).tried.mpr (Bool.eq_false_iff.mp hx)
    push Not at htried
    obtain ⟨a, n, ⟨pre', mid, rfl, ha, hmid, rfl⟩, hnear⟩ := htried
    exact ⟨pre', a, mid, rfl, ha, hmid, hnear⟩

def everyOther : Config := ⟨milliseconds, 2, 0, 3⟩

/-- The second frame comes too soon and the third cannot be encoded, so the fourth follows
the first. -/
theorem cutLoop_samples_four :
    ∃ c, cutLoop everyOther {} [.video 0 (.frame (some 'a')), .other, .video 40 .noFrame,
        .video 40 (.frame (some 'b')), .video 80 (.frame none), .video 120 (.frame (some 'd'))] = .ok c ∧
      c.output = [⟨'a', 0⟩, ⟨'d', 0⟩] ∧ Apart everyOther ⟨0, some 'a', true, some ⟨'a', 0⟩⟩ 3 120 := by
  refine ⟨_, rfl, rfl, ?_⟩
  obtain ⟨-, -, -, -, -, -, -, hapart, -⟩ := cutLoop_samples everyOther (by decide) (.inl (by decide))
    [.video 0 (.frame (some 'a')), .other, .video 40 .noFrame, .video 40 (.frame (some 'b')),
      .video 80 (.frame none), .video 120 (.frame (some 'd'))] _ rfl
  exact hapart [] _ [⟨40, some 'b', false, none⟩, ⟨80, none, true, none⟩] _ [] rfl rfl (by simp [Shot.Taken]) rfl

end Sampling

end CppBase.Mediaproc.CutFrames
