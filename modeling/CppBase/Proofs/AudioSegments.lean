import CppBase.Spec.AudioSplit
import Mathlib.Algebra.Order.Ring.Int
import Mathlib.Data.List.TakeWhile

/-! The segments of `splitAudio`. All but the first begin with the frame that the others
in them are measured from; the first is measured from zero. -/

namespace CppBase.Mediaproc.AudioSplit

open CppBase.Lib

variable {δ : Type} {calls : Calls δ} {timeBase : AVRational} {segtime : ℤ}

section Rounds

/-- `d` ticks of the time base are `segtime` seconds or more. -/
def Due (timeBase : AVRational) (segtime d : ℤ) : Prop := segtime * timeBase.den ≤ d * timeBase.num

instance (d : ℤ) : Decidable (Due timeBase segtime d) := inferInstanceAs (Decidable (_ ≤ _))

/-- A round of the inner loop in which all calls succeed. -/
def Splitter.next (timeBase : AVRational) (segtime : ℤ) (s : Splitter δ) (frame : AVFrame δ) : Splitter δ :=
  if Due timeBase segtime (frame.pts - s.basePts) then
    ⟨s.outbuf ++ [s.fmtOut], [frame], frame.pts, s.inits + 1⟩
  else { s with fmtOut := s.fmtOut ++ [frame] }

structure Calls.Succeed (calls : Calls δ) : Prop where
  opened : calls.openCodecContext = true
  inits : ∀ k, calls.init k = true
  writes : ∀ frame, calls.write frame = true

theorem int64_cases (δ : Type) (x : ℤ) :
    int64 x = .error (.overflow : Stop δ) ∨ int64 x = (.ok x : Except (Stop δ) ℤ) := by
  unfold int64
  split_ifs
  · exact .inr rfl
  · exact .inl rfl

/-- Without overflow the comparison is that of the times. -/
theorem compareTimestamp_cases (δ : Type) (timeBase : AVRational) (segtime ts : ℤ) :
    compareTimestamp ts timeBase segtime = .error (.overflow : Stop δ) ∨
      ∃ c, compareTimestamp ts timeBase segtime = (.ok c : Except (Stop δ) ℤ) ∧
        (c ≥ 0 ↔ Due timeBase segtime ts) := by
  unfold compareTimestamp
  obtain h | h := int64_cases δ (ts * timeBase.num)
  · exact .inl (by rw [h, error_bind])
  obtain h' | h' := int64_cases δ (segtime * timeBase.den)
  · exact .inl (by rw [h, ok_bind, h', error_bind])
  obtain h'' | h'' := int64_cases δ (ts * timeBase.num - segtime * timeBase.den)
  · exact .inl (by rw [h, ok_bind, h', ok_bind, h'', error_bind])
  · right
    rw [h, ok_bind, h', ok_bind, h'', ok_bind]
    unfold Due
    split_ifs
    · exact ⟨_, rfl, by omega⟩
    · exact ⟨_, rfl, by omega⟩
    · exact ⟨_, rfl, by omega⟩

theorem splitFrame_cases (hcalls : calls.Succeed) (s : Splitter δ) (frame : AVFrame δ) :
    splitFrame calls timeBase segtime s frame = .error .overflow ∨
      splitFrame calls timeBase segtime s frame = .ok (s.next timeBase segtime frame) := by
  unfold splitFrame
  obtain h | h := int64_cases δ (frame.pts - s.basePts)
  · exact .inl (by rw [h, error_bind])
  obtain h' | ⟨c, h', hc⟩ := compareTimestamp_cases δ timeBase segtime (frame.pts - s.basePts)
  · exact .inl (by rw [h, ok_bind, h', error_bind])
  · right
    rw [h, ok_bind, h', ok_bind, Splitter.next]
    by_cases hdue : Due timeBase segtime (frame.pts - s.basePts)
    · simp [if_pos (hc.mpr hdue), if_pos hdue, Splitter.reset, Splitter.write, hcalls.inits, hcalls.writes]
    · simp [if_neg (mt hc.mp hdue), if_neg hdue, Splitter.write, hcalls.writes]

end Rounds

section Segments

/-- What is pushed from `base` on, with `cur` in the encoder. -/
def segments (timeBase : AVRational) (segtime : ℤ) (base : ℤ) (cur : List (AVFrame δ)) :
    List (AVFrame δ) → List (List (AVFrame δ))
  | [] => [cur]
  | frame :: frames =>
    if Due timeBase segtime (frame.pts - base) then cur :: segments timeBase segtime frame.pts [frame] frames
    else segments timeBase segtime base (cur ++ [frame]) frames

variable {base : ℤ} {first : AVFrame δ} {cur seg frames : List (AVFrame δ)}

theorem foldl_next (frames : List (AVFrame δ)) (s : Splitter δ) :
    (frames.foldl (Splitter.next timeBase segtime) s).outbuf ++
        [(frames.foldl (Splitter.next timeBase segtime) s).fmtOut] =
      s.outbuf ++ segments timeBase segtime s.basePts s.fmtOut frames := by
  induction frames generalizing s with
  | nil => rfl
  | cons frame frames ih =>
    rw [List.foldl_cons, ih, segments, Splitter.next]
    split_ifs
    · rw [List.append_assoc, List.singleton_append]
    · rfl

theorem segments_flatten : (segments timeBase segtime base cur frames).flatten = cur ++ frames := by
  induction frames generalizing base cur with
  | nil => simp [segments]
  | cons frame frames ih =>
    rw [segments]
    split_ifs
    · rw [List.flatten_cons, ih, List.singleton_append]
    · rw [ih, List.append_assoc, List.singleton_append]

def Within (timeBase : AVRational) (segtime : ℤ) (seg : List (AVFrame δ)) : Prop :=
  ∀ first ∈ seg.head?, ∀ frame ∈ seg, (frame.pts - first.pts) * timeBase.num < segtime * timeBase.den

def upTo (timeBase : AVRational) (segtime : ℤ) (base : ℤ) (frames : List (AVFrame δ)) : List (AVFrame δ) :=
  frames.takeWhile fun frame => !decide (Due timeBase segtime (frame.pts - base))

theorem upTo_due (frames : List (AVFrame δ)) (h : Due timeBase segtime (first.pts - base)) :
    upTo timeBase segtime base (first :: frames) = [] :=
  List.takeWhile_cons_of_neg (by simp [h])

theorem upTo_cons (frames : List (AVFrame δ)) (h : ¬ Due timeBase segtime (first.pts - base)) :
    upTo timeBase segtime base (first :: frames) = first :: upTo timeBase segtime base frames :=
  List.takeWhile_cons_of_pos (by simp [h])

theorem not_due_zero (hseg : 1 ≤ segtime) : ¬ Due timeBase segtime 0 := by
  have := mul_pos (show 0 < segtime by omega) timeBase.den_pos
  unfold Due
  omega

/-- A segment that begins with the frame it is measured from keeps to it. -/
theorem within_upTo (hseg : 1 ≤ segtime) (first : AVFrame δ) (frames : List (AVFrame δ)) :
    Within timeBase segtime (first :: upTo timeBase segtime first.pts frames) := by
  intro f hf frame hframe
  cases hf
  apply not_le.mp
  show ¬ Due timeBase segtime (frame.pts - first.pts)
  obtain rfl | hmem := List.mem_cons.mp hframe
  · rw [sub_self]
    exact not_due_zero hseg
  · simpa using List.mem_takeWhile_imp hmem

theorem segments_cons (timeBase : AVRational) (hseg : 1 ≤ segtime) (base : ℤ) (cur frames : List (AVFrame δ)) :
    ∃ rest, segments timeBase segtime base cur frames = (cur ++ upTo timeBase segtime base frames) :: rest ∧
      ∀ seg ∈ rest, seg ≠ [] ∧ Within timeBase segtime seg := by
  induction frames generalizing base cur with
  | nil => exact ⟨[], by simp [segments, upTo], nofun⟩
  | cons frame frames ih =>
    rw [segments]
    by_cases hdue : Due timeBase segtime (frame.pts - base)
    · obtain ⟨rest, heq, hrest⟩ := ih frame.pts [frame]
      refine ⟨_, ?_, List.forall_mem_cons.mpr ⟨⟨?_, within_upTo hseg frame frames⟩, hrest⟩⟩
      · rw [if_pos hdue, heq, upTo_due frames hdue, List.append_nil]
        rfl
      · exact List.cons_ne_nil _ _
    · obtain ⟨rest, heq, hrest⟩ := ih base (cur ++ [frame])
      refine ⟨rest, ?_, hrest⟩
      rw [if_neg hdue, heq, upTo_cons frames hdue, List.append_assoc, List.singleton_append]

/-- In the order of their time, the frames up to the first that is due are those that are not. -/
theorem mem_upTo (timeBase : AVRational) (segtime base : ℤ) (hmono : frames.Pairwise fun f g => f.pts ≤ g.pts)
    (frame : AVFrame δ) :
    frame ∈ upTo timeBase segtime base frames ↔ frame ∈ frames ∧ ¬ Due timeBase segtime (frame.pts - base) := by
  constructor
  · intro h
    exact ⟨(List.takeWhile_prefix _).subset h, by simpa using List.mem_takeWhile_imp h⟩
  · rintro ⟨hmem, hdue⟩
    induction hmono with
    | nil => cases hmem
    | @cons f frames hle _ ih =>
      have hf : ¬ Due timeBase segtime (f.pts - base) := by
        obtain rfl | hmem := List.mem_cons.mp hmem
        · exact hdue
        · intro hf
          refine hdue (hf.trans (mul_le_mul_of_nonneg_right ?_ timeBase.num_pos.le))
          exact sub_le_sub_right (hle frame hmem) base
      rw [upTo_cons frames hf]
      obtain rfl | hmem := List.mem_cons.mp hmem
      · exact List.mem_cons_self
      · exact List.mem_cons_of_mem f (ih hmem)

/-- The segments are as they should be exactly when the first is. -/
theorem segments_proper_iff (hseg : 1 ≤ segtime) (first : AVFrame δ)
    (hmono : (first :: frames).Pairwise fun f g => f.pts ≤ g.pts) :
    (∀ seg ∈ segments timeBase segtime 0 [] (first :: frames), seg ≠ [] ∧ Within timeBase segtime seg) ↔
      ¬ Due timeBase segtime first.pts ∧
        ∀ frame ∈ first :: frames, ¬ Due timeBase segtime frame.pts →
          ¬ Due timeBase segtime (frame.pts - first.pts) := by
  obtain ⟨rest, heq, hrest⟩ := segments_cons timeBase hseg 0 [] (first :: frames)
  have hmem := mem_upTo timeBase segtime 0 hmono
  have hhead : ¬ Due timeBase segtime first.pts →
      upTo timeBase segtime 0 (first :: frames) = first :: upTo timeBase segtime 0 frames := fun h =>
    upTo_cons frames (by rwa [sub_zero])
  simp only [sub_zero] at hmem
  rw [heq, List.nil_append, List.forall_mem_cons, and_iff_left hrest]
  constructor
  · rintro ⟨hne, hwithin⟩
    have hfirst : ¬ Due timeBase segtime first.pts := fun hdue => hne (upTo_due frames (by rwa [sub_zero]))
    refine ⟨hfirst, fun frame hframe hdue => not_le.mpr ?_⟩
    exact hwithin first (by rw [hhead hfirst]; rfl) frame ((hmem frame).mpr ⟨hframe, hdue⟩)
  · rintro ⟨hfirst, hall⟩
    refine ⟨by simp [hhead hfirst], fun f hf frame hframe => ?_⟩
    rw [hhead hfirst] at hf
    cases hf
    obtain ⟨hframe, hdue⟩ := (hmem frame).mp hframe
    exact not_le.mp (hall frame hframe hdue)

end Segments

section Results

variable {batches : List (List (AVFrame δ))}

theorem splitAudio_segments (hcalls : calls.Succeed) (outbuf : List (List (AVFrame δ)))
    (hoverflow : splitAudio calls timeBase segtime outbuf (batches.map some) ≠ .error .overflow) :
    splitAudio calls timeBase segtime outbuf (batches.map some) =
      .ok (segments timeBase segtime 0 [] batches.flatten) := by
  have hrun : ∀ s : Splitter δ,
      runAll (splitBatch calls timeBase segtime) s (batches.map some) = .error .overflow ∨
        runAll (splitBatch calls timeBase segtime) s (batches.map some) =
          .ok ((batches.map some).foldl
            (fun s b => (b.getD []).foldl (Splitter.next timeBase segtime) s) s) := fun s => by
    refine runAll_or_error fun s b hb => ?_
    obtain ⟨frames, -, rfl⟩ := List.mem_map.mp hb
    exact runAll_or_error fun s frame _ => splitFrame_cases hcalls s frame
  unfold splitAudio splitAudioDecode at hoverflow ⊢
  rw [if_neg (by simp [hcalls.opened, hcalls.inits])] at hoverflow ⊢
  obtain h | h := hrun ⟨[], [], 0, 1⟩
  · rw [h, error_bind] at hoverflow
    exact absurd rfl hoverflow
  · rw [h, ok_bind, List.foldl_map]
    simp only [Option.getD_some]
    rw [← List.foldl_flatten, foldl_next]
    rfl

/-- Every frame is in one of the segments, in order. The segments are not empty and shorter
than `segtime` seconds exactly when the first frame is before `segtime` seconds and every
frame that is so is less than `segtime` seconds after the first. -/
theorem splitAudio_proper_iff (calls : Calls δ) (hcalls : calls.Succeed) (timeBase : AVRational) (segtime : ℤ)
    (hseg : 1 ≤ segtime) (outbuf batches : List (List (AVFrame δ))) (first : AVFrame δ) (frames : List (AVFrame δ))
    (hframes : batches.flatten = first :: frames) (hmono : (first :: frames).Pairwise fun f g => f.pts ≤ g.pts)
    (hoverflow : splitAudio calls timeBase segtime outbuf (batches.map some) ≠ .error .overflow) :
    ∃ segs, splitAudio calls timeBase segtime outbuf (batches.map some) = .ok segs ∧
      ((segs.flatten = batches.flatten ∧ ∀ seg ∈ segs, seg ≠ [] ∧ Within timeBase segtime seg) ↔
        ¬ Due timeBase segtime first.pts ∧
          ∀ frame ∈ batches.flatten, ¬ Due timeBase segtime frame.pts →
            ¬ Due timeBase segtime (frame.pts - first.pts)) := by
  refine ⟨_, splitAudio_segments hcalls outbuf hoverflow, ?_⟩
  rw [and_iff_right (segments_flatten.trans (List.nil_append _)), hframes, segments_proper_iff hseg first hmono]

def milliseconds : AVRational := ⟨1, 1000, by decide, by decide⟩

def smooth : Calls Unit := ⟨true, fun _ => true, fun _ => true⟩

theorem smooth_succeed : smooth.Succeed := ⟨rfl, fun _ => rfl, fun _ => rfl⟩

theorem splitAudio_proper_one_second :
    let batches : List (List (AVFrame Unit)) := [[⟨(), 0⟩, ⟨(), 600⟩], [], [⟨(), 1200⟩]]
    splitAudio smooth milliseconds 1 [] (batches.map some) = .ok [[⟨(), 0⟩, ⟨(), 600⟩], [⟨(), 1200⟩]] ∧
      ∃ segs, splitAudio smooth milliseconds 1 [] (batches.map some) = .ok segs ∧
        ((segs.flatten = batches.flatten ∧ ∀ seg ∈ segs, seg ≠ [] ∧ Within milliseconds 1 seg) ↔
          ¬ Due milliseconds 1 0 ∧
            ∀ frame ∈ batches.flatten, ¬ Due milliseconds 1 frame.pts → ¬ Due milliseconds 1 (frame.pts - 0)) :=
  ⟨rfl, splitAudio_proper_iff smooth smooth_succeed milliseconds 1 (by decide) [] _ ⟨(), 0⟩ [⟨(), 600⟩, ⟨(), 1200⟩]
    rfl (by simp) (by intro h; cases h)⟩

/-- A stream that begins at twelve seconds, in segments of ten: the first segment is empty. -/
theorem splitAudio_late_start :
    splitAudio smooth milliseconds 10 [] [some [⟨(), 12000⟩]] = .ok [[], [⟨(), 12000⟩]] :=
  rfl

end Results

end CppBase.Mediaproc.AudioSplit
