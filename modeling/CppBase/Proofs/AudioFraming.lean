import CppBase.Lib.History
import CppBase.Spec.AudioEncode
import Mathlib.Order.Nat

/-! The frames that `AudioEncode` sends to the codec. Between two calls of `write` fewer
samples than a frame are in the queue, so the flush sends a last frame that is no longer. -/

namespace CppBase.Mediaproc.AudioEncode

open CppBase.Lib

variable {φ α π : Type} {calls : Calls φ α π} {frameSize : ℕ} {resample : φ → List α}

/-- All calls succeed, and the resampler turns a frame into the samples `resample` gives. -/
structure Calls.Succeed (calls : Calls φ α π) (resample : φ → List α) : Prop where
  allocates : ∀ frame, calls.samplesAlloc frame = true
  converts : ∀ frame, calls.swrConvert frame = some (resample frame)
  stores : ∀ samples, calls.fifoWrite samples = true
  inits : ∀ size, calls.initOutputFrame size = true
  reads : ∀ size, calls.fifoRead size = true
  sends : ∀ frame, calls.sendFrame frame = true
  receives : ∀ frame, none ∉ calls.receivePacket frame
  writes : ∀ packet, calls.writeFrame packet = true
  ends : calls.writeTrailer = true

section Frames

variable {sent : List (OutputFrame α)} {frame : OutputFrame α}

def samplesOf (sent : List (OutputFrame α)) : List α := sent.flatMap OutputFrame.samples

theorem samplesOf_concat : samplesOf (sent ++ [frame]) = samplesOf sent ++ frame.samples := by
  simp [samplesOf]

/-- The `pts` of each frame is the number of samples before it. -/
def Stamped (sent : List (OutputFrame α)) : Prop :=
  EachAfter (fun pre frame => frame.pts = (samplesOf pre).length) sent

end Frames

section Rounds

variable {e : Encoder α π}

theorem convertAndStore_ok (hcalls : calls.Succeed resample) (e : Encoder α π) (frame : φ) :
    convertAndStore calls e frame = .ok { e with fifo := e.fifo ++ resample frame } := by
  unfold convertAndStore
  rw [hcalls.allocates, hcalls.converts]
  cases resample frame <;> simp [hcalls.stores]

theorem encodeAudioFrame_ok (hcalls : calls.Succeed resample) (e : Encoder α π) (frame : Option (OutputFrame α)) :
    ∃ written, encodeAudioFrame calls e frame = .ok { e with sent := e.sent ++ frame.toList, written } := by
  have hrounds : ∀ packets, none ∉ packets → ∀ e : Encoder α π,
      ∃ written, runAll (writePacket calls) e packets = .ok { e with written } := by
    intro packets hsome
    induction packets with
    | nil => exact fun e => ⟨e.written, rfl⟩
    | cons packet packets ih =>
      intro e
      obtain ⟨hhead, hrest⟩ := List.mem_cons.not.mp hsome |> not_or.mp
      obtain ⟨p, rfl⟩ := Option.ne_none_iff_exists'.mp (Ne.symm hhead)
      have hstep : writePacket calls e (some p) = .ok { e with written := e.written ++ [p] } := by
        rw [writePacket, if_pos (hcalls.writes p)]
      obtain ⟨written, hrun⟩ := ih hrest { e with written := e.written ++ [p] }
      exact ⟨written, (runAll_cons hstep).trans hrun⟩
  obtain ⟨written, hrun⟩ := hrounds _ (hcalls.receives frame) { e with sent := e.sent ++ frame.toList }
  exact ⟨written, by rw [encodeAudioFrame, if_pos (hcalls.sends frame), hrun]⟩

/-- What holds between the rounds: `stream` is cut into the samples sent and those that
are still queued. -/
structure Framed (stream : List α) (e : Encoder α π) : Prop where
  split : samplesOf e.sent ++ e.fifo = stream
  counts : e.pts = (samplesOf e.sent).length
  stamped : Stamped e.sent

variable {stream : List α}

theorem Framed.start : Framed [] ({} : Encoder α π) where
  split := rfl
  counts := rfl
  stamped := eachAfter_nil

theorem Framed.store (h : Framed stream e) (samples : List α) :
    Framed (stream ++ samples) { e with fifo := e.fifo ++ samples } where
  split := by rw [← List.append_assoc, h.split]
  counts := h.counts
  stamped := h.stamped

theorem Framed.encodeNext_ok (hcalls : calls.Succeed resample) (h : Framed stream e) {size : ℕ}
    (hsize : size ≤ e.fifo.length) :
    ∃ e', encodeNext calls e size = .ok e' ∧ Framed stream e' ∧ e'.fifo = e.fifo.drop size ∧
      ∃ frame, e'.sent = e.sent ++ [frame] ∧ frame.samples.length = size := by
  have htake : (e.fifo.take size).length = size := List.length_take_of_le hsize
  obtain ⟨written, henc⟩ := encodeAudioFrame_ok hcalls { e with fifo := e.fifo.drop size, pts := e.pts + size }
    (some ⟨e.fifo.take size, e.pts⟩)
  have heq : encodeNext calls e size = .ok ⟨e.fifo.drop size, e.pts + size,
      e.sent ++ [⟨e.fifo.take size, e.pts⟩], written⟩ := by
    rw [encodeNext, hcalls.inits, hcalls.reads]
    exact henc
  refine ⟨_, heq, ⟨?_, ?_, EachAfter.concat h.stamped h.counts⟩, rfl, _, rfl, htake⟩
  · rw [samplesOf_concat, List.append_assoc, List.take_append_drop, h.split]
  · rw [samplesOf_concat, List.length_append, htake, h.counts]

end Rounds

section Methods

variable {e : Encoder α π} {stream : List α}

/-- All frames so far are full, and no further one can be filled. -/
structure Settled (frameSize : ℕ) (stream : List α) (e : Encoder α π) : Prop extends Framed stream e where
  full : ∀ frame ∈ e.sent, frame.samples.length = frameSize
  short : e.fifo.length < frameSize

theorem writeLoop_ok (hcalls : calls.Succeed resample) (hpos : 1 ≤ frameSize) {fuel : ℕ}
    (hfuel : e.fifo.length ≤ fuel) (h : Framed stream e)
    (hfull : ∀ frame ∈ e.sent, frame.samples.length = frameSize) :
    ∃ e', writeLoop calls frameSize fuel e = .ok e' ∧ Settled frameSize stream e' := by
  induction fuel generalizing e with
  | zero =>
    rw [writeLoop, if_neg (by omega)]
    exact ⟨e, rfl, h, hfull, by omega⟩
  | succ fuel ih =>
    rw [writeLoop]
    split_ifs with hge
    · obtain ⟨e', heq, h', hfifo, frame, hsent, hlen⟩ := h.encodeNext_ok hcalls (Nat.min_le_left _ frameSize)
      rw [Nat.min_eq_right hge] at hlen hfifo
      have hfull' : ∀ frame ∈ e'.sent, frame.samples.length = frameSize := fun f hf => by
        rw [hsent, List.mem_append, List.mem_singleton] at hf
        exact hf.elim (hfull f) fun hf => hf ▸ hlen
      simp only [heq, ok_bind]
      refine ih ?_ h' hfull'
      rw [hfifo, List.length_drop]
      omega
    · exact ⟨e, rfl, h, hfull, not_le.mp hge⟩

/-- What a call of `write` puts into the queue. -/
def resampled (resample : φ → List α) (frame : Option φ) : List α := frame.elim [] resample

theorem Settled.write_ok (hcalls : calls.Succeed resample) (hpos : 1 ≤ frameSize) (h : Settled frameSize stream e)
    (frame : Option φ) :
    ∃ e', write calls frameSize e frame = .ok e' ∧ Settled frameSize (stream ++ resampled resample frame) e' := by
  unfold write
  cases frame with
  | none =>
    simp only [ok_bind, resampled, Option.elim_none, List.append_nil]
    exact writeLoop_ok hcalls hpos le_rfl h.toFramed h.full
  | some frame =>
    simp only [convertAndStore_ok hcalls, ok_bind, resampled, Option.elim_some]
    exact writeLoop_ok hcalls hpos le_rfl (h.store (resample frame)) h.full

theorem Settled.writes_ok (hcalls : calls.Succeed resample) (hpos : 1 ≤ frameSize) (h : Settled frameSize stream e)
    (frames : List (Option φ)) :
    ∃ e', runAll (write calls frameSize) e frames = .ok e' ∧
      Settled frameSize (stream ++ frames.flatMap (resampled resample)) e' := by
  induction frames generalizing e stream with
  | nil => exact ⟨e, rfl, by simpa using h⟩
  | cons frame frames ih =>
    obtain ⟨e', hstep, h'⟩ := h.write_ok hcalls hpos frame
    obtain ⟨e'', hrun, h''⟩ := ih h'
    refine ⟨e'', (runAll_cons hstep).trans hrun, ?_⟩
    rwa [List.flatMap_cons, ← List.append_assoc]

theorem flushLoop_nil (fuel : ℕ) (h : e.fifo = []) : flushLoop calls fuel e = .ok e := by
  cases fuel <;> rw [flushLoop, h] <;> rfl

/-- What is left goes out as one more frame, if anything is. -/
def LastFrame (e e' : Encoder α π) : Prop :=
  e.fifo = [] ∧ e'.sent = e.sent ∨
    ∃ frame, e'.sent = e.sent ++ [frame] ∧ frame.samples.length = e.fifo.length ∧ 1 ≤ frame.samples.length

theorem Framed.flushLoop_ok (hcalls : calls.Succeed resample) (h : Framed stream e) :
    ∃ e', flushLoop calls e.fifo.length e = .ok e' ∧ Framed stream e' ∧ e'.fifo = [] ∧ LastFrame e e' := by
  by_cases hnil : e.fifo = []
  · exact ⟨e, flushLoop_nil _ hnil, h, hnil, .inl ⟨hnil, rfl⟩⟩
  · obtain ⟨n, hn⟩ := Nat.exists_eq_succ_of_ne_zero (mt List.eq_nil_of_length_eq_zero hnil)
    obtain ⟨e', heq, h', hfifo, frame, hsent, hlen⟩ := h.encodeNext_ok hcalls le_rfl
    rw [List.drop_length] at hfifo
    refine ⟨e', ?_, h', hfifo, .inr ⟨frame, hsent, hlen, by omega⟩⟩
    rw [hn, flushLoop, if_pos (by omega)]
    simp only [heq, ok_bind]
    exact flushLoop_nil n hfifo

theorem Framed.writeTrailer_ok (hcalls : calls.Succeed resample) (h : Framed stream e) :
    ∃ e', writeTrailer calls e = .ok e' ∧ Framed stream e' ∧ e'.fifo = [] ∧ LastFrame e e' := by
  obtain ⟨e', hflush, h', hfifo, hlast⟩ := h.flushLoop_ok hcalls
  -- the codec is told that no more frames come, which sends none
  obtain ⟨written, henc⟩ := encodeAudioFrame_ok hcalls e' none
  rw [Option.toList_none, List.append_nil] at henc
  have heq : writeTrailer calls e = .ok { e' with written } := by
    rw [writeTrailer, flushEncoder, hflush, ok_bind, henc, ok_bind, if_pos hcalls.ends]
  exact ⟨_, heq, ⟨h'.split, h'.counts, h'.stamped⟩, hfifo, hlast⟩

/-- No sample is lost: whatever the sizes of the input frames, the samples reach the codec
in order, in frames of `frameSize` but for the last, stamped with the samples before. -/
theorem encodeAll_lossless (hcalls : calls.Succeed resample) (hpos : 1 ≤ frameSize) (frames : List (Option φ)) :
    ∃ e, encodeAll calls frameSize frames = .ok e ∧
      samplesOf e.sent = frames.flatMap (resampled resample) ∧
      (∀ frame ∈ e.sent.dropLast, frame.samples.length = frameSize) ∧
      (∀ frame ∈ e.sent, 1 ≤ frame.samples.length ∧ frame.samples.length ≤ frameSize) ∧
      Stamped e.sent ∧ e.pts = (frames.flatMap (resampled resample)).length := by
  have hstart : Settled frameSize [] ({} : Encoder α π) := ⟨Framed.start, nofun, hpos⟩
  obtain ⟨e, hrun, h⟩ := hstart.writes_ok hcalls hpos frames
  obtain ⟨e', htrailer, h', hfifo, hlast⟩ := h.writeTrailer_ok hcalls
  have hsamples : samplesOf e'.sent = frames.flatMap (resampled resample) := by
    simpa [hfifo] using h'.split
  refine ⟨e', by rw [encodeAll, hrun, ok_bind, htrailer], hsamples, ?_, ?_, h'.stamped, hsamples ▸ h'.counts⟩
  · obtain ⟨-, hsent⟩ | ⟨frame, hsent, -⟩ := hlast
    · exact fun frame hframe => h.full frame (hsent ▸ List.dropLast_subset _ hframe)
    · rw [hsent, List.dropLast_concat]
      exact h.full
  · intro frame hframe
    have hold : ∀ frame ∈ e.sent, 1 ≤ frame.samples.length ∧ frame.samples.length ≤ frameSize :=
      fun frame hframe => ⟨h.full frame hframe ▸ hpos, (h.full frame hframe).le⟩
    obtain ⟨-, hsent⟩ | ⟨last, hsent, hlen, hone⟩ := hlast
    · exact hold frame (hsent ▸ hframe)
    · rw [hsent, List.mem_append, List.mem_singleton] at hframe
      obtain hframe | rfl := hframe
      · exact hold frame hframe
      · exact ⟨hone, hlen ▸ h.short.le⟩

def plainCalls : Calls (List ℕ) ℕ Unit where
  samplesAlloc _ := true
  swrConvert := some
  fifoWrite _ := true
  initOutputFrame _ := true
  fifoRead _ := true
  sendFrame _ := true
  receivePacket _ := []
  writeFrame _ := true
  writeTrailer := true

theorem plainCalls_succeed : plainCalls.Succeed id where
  allocates _ := rfl
  converts _ := rfl
  stores _ := rfl
  inits _ := rfl
  reads _ := rfl
  sends _ := rfl
  receives _ := nofun
  writes _ := rfl
  ends := rfl

theorem encodeAll_lossless_five :
    encodeAll plainCalls 2 [some [1, 2, 3], none, some [4, 5]] =
        .ok ⟨[], 5, [⟨[1, 2], 0⟩, ⟨[3, 4], 2⟩, ⟨[5], 4⟩], []⟩ ∧
      ∃ e, encodeAll plainCalls 2 [some [1, 2, 3], none, some [4, 5]] = .ok e ∧
        samplesOf e.sent = [1, 2, 3, 4, 5] ∧
        (∀ frame ∈ e.sent.dropLast, frame.samples.length = 2) ∧
        (∀ frame ∈ e.sent, 1 ≤ frame.samples.length ∧ frame.samples.length ≤ 2) ∧ Stamped e.sent ∧ e.pts = 5 :=
  ⟨by decide +kernel, encodeAll_lossless plainCalls_succeed (by decide) [some [1, 2, 3], none, some [4, 5]]⟩

end Methods

end CppBase.Mediaproc.AudioEncode
