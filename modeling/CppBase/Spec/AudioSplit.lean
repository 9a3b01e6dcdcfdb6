import CppBase.Lib.Fallible
import Mathlib.Algebra.Group.Int.Defs

/-! `AudioProcessor::splitAudio`, over the calls into the codecs. An `AudioEncode` is the
list of the frames written to it. -/

namespace CppBase.Mediaproc.AudioSplit

open CppBase.Lib

section Timestamps

/-- `AVRational` as the time base of a stream: `num / den` seconds. -/
structure AVRational where
  num : ℤ
  den : ℤ
  num_pos : 0 < num
  den_pos : 0 < den

structure AVFrame (δ : Type) where
  data : δ
  pts : ℤ

/-- How `splitAudio` stops early: it returns `false` with what is in `outbuf`, or an
`int64_t` overflows, which is undefined. -/
inductive Stop (δ : Type) where
  | fails (outbuf : List (List (AVFrame δ)))
  | overflow

variable {δ : Type}

/-- The value of an expression of type `int64_t`. -/
def int64 (x : ℤ) : Except (Stop δ) ℤ := if -2 ^ 63 ≤ x ∧ x < 2 ^ 63 then .ok x else .error .overflow

def compareTimestamp (ts : ℤ) (timebase : AVRational) (time : ℤ) : Except (Stop δ) ℤ := do
  let left ← int64 (ts * timebase.num)
  let right ← int64 (time * timebase.den)
  let diff ← int64 (left - right)
  if diff < 0 then .ok (-1) else if diff > 0 then .ok 1 else .ok 0

end Timestamps

section Loop

variable {δ : Type}

/-- What the calls answer: opening the codec, the `AudioEncode::init` by their number, and
`AudioEncode::write`. -/
structure Calls (δ : Type) where
  openCodecContext : Bool
  init : ℕ → Bool
  write : AVFrame δ → Bool

/-- The variables of `splitAudioDecode`, and the number of encoders so far. -/
structure Splitter (δ : Type) where
  outbuf : List (List (AVFrame δ))
  fmtOut : List (AVFrame δ)
  basePts : ℤ
  inits : ℕ

variable (calls : Calls δ) (timeBase : AVRational) (segtime : ℤ)

/-- The encoder is pushed and another one begun. -/
def Splitter.reset (s : Splitter δ) (pts : ℤ) : Except (Stop δ) (Splitter δ) :=
  let outbuf := s.outbuf ++ [s.fmtOut]
  if calls.init s.inits then .ok ⟨outbuf, [], pts, s.inits + 1⟩ else .error (.fails outbuf)

def Splitter.write (s : Splitter δ) (frame : AVFrame δ) : Except (Stop δ) (Splitter δ) :=
  if calls.write frame then .ok { s with fmtOut := s.fmtOut ++ [frame] } else .error (.fails s.outbuf)

def splitFrame (s : Splitter δ) (frame : AVFrame δ) : Except (Stop δ) (Splitter δ) := do
  let biasPts ← int64 (frame.pts - s.basePts)
  let c ← compareTimestamp biasPts timeBase segtime
  let s ← if c ≥ 0 then s.reset calls frame.pts else .ok s
  s.write calls frame

/-- The body of the outer loop, on what `decode_audio_frame` answers: `none` if it fails,
or a batch of frames. -/
def splitBatch (s : Splitter δ) : Option (List (AVFrame δ)) → Except (Stop δ) (Splitter δ)
  | none => .error (.fails s.outbuf)
  | some frameList => runAll (splitFrame calls timeBase segtime) s frameList

/-- `decoded` are the answers of `decode_audio_frame` up to the one that is finished
without data. -/
def splitAudioDecode (outbuf : List (List (AVFrame δ))) (decoded : List (Option (List (AVFrame δ)))) :
    Except (Stop δ) (List (List (AVFrame δ))) := do
  if !calls.openCodecContext || !calls.init 0 then .error (.fails outbuf)
  else
    let s ← runAll (splitBatch calls timeBase segtime) ⟨outbuf, [], 0, 1⟩ decoded
    .ok (s.outbuf ++ [s.fmtOut])

/-- `outbuf` is cleared first. -/
def splitAudio (_outbuf : List (List (AVFrame δ))) (decoded : List (Option (List (AVFrame δ)))) :
    Except (Stop δ) (List (List (AVFrame δ))) :=
  splitAudioDecode calls timeBase segtime [] decoded

end Loop

end CppBase.Mediaproc.AudioSplit
