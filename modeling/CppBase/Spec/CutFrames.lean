import CppBase.Spec.AudioSplit
import Mathlib.Algebra.Group.Nat.Defs

/-! `cutFrames` of `videoproc/Processor.cpp`, over what reading, decoding and encoding
give. `γ` are the pictures. An `int64_t` that overflows is the only fault. -/

namespace CppBase.Mediaproc.CutFrames

open CppBase.Lib AudioSplit

@[ext]
structure CutFrameInfo (γ : Type) where
  content : γ
  timeAt : ℤ
  deriving DecidableEq

structure Config where
  timeBase : AVRational
  frameInterval : ℤ
  timeInterval : ℤ
  maxFrames : ℤ

/-- The answer of `decodeFrame`: negative, zero or a frame. The encoder makes a picture of
the frame, or fails. -/
inductive Decoding (γ : Type) where
  | error
  | noFrame
  | frame (picture : Option γ)

inductive Packet (γ : Type) where
  | other
  | video (pts : ℤ) (decoding : Decoding γ)

/-- What became of a decoded frame: whether it was tried, and what was put out of it. -/
structure Shot (γ : Type) where
  pts : ℤ
  picture : Option γ
  tried : Bool
  info : Option (CutFrameInfo γ)

/-- The variables of `cutFrames`; `shots` are the decoded frames. -/
structure Cutter (γ : Type) where
  basePts : ℤ := -1
  lastPts : ℤ := 0
  decodeCount : ℤ := 0
  encodeCount : ℤ := 0
  lastEncodeIndex : ℤ := 0
  output : List (CutFrameInfo γ) := []
  shots : List (Shot γ) := []

variable {γ : Type}

/-- The quotient is narrowed to an `int`. -/
def coverPts2sec (ts : ℤ) (timebase : AVRational) : Except (Stop Unit) ℤ :=
  if timebase.den ≤ 0 then .ok 0
  else do
    let ticks ← int64 (ts * timebase.num)
    .ok ((ticks.tdiv timebase.den).bmod (2 ^ 32))

variable (config : Config)

def shouldEncode (c : Cutter γ) (pts : ℤ) : Except (Stop Unit) Bool :=
  if config.frameInterval > 0 then
    .ok (c.encodeCount = 0 ∨ c.decodeCount - c.lastEncodeIndex ≥ config.frameInterval)
  else if config.timeInterval > 0 then do
    let diffPts ← int64 (pts - c.lastPts)
    if c.encodeCount = 0 then .ok true
    else
      let order ← compareTimestamp diffPts config.timeBase config.timeInterval
      .ok (order ≥ 0)
  else .ok false

/-- The body of the loop from `decode_count++` on. -/
def cutFrame (c : Cutter γ) (pts : ℤ) (picture : Option γ) : Except (Stop Unit) (Cutter γ) := do
  let c := { c with
    decodeCount := c.decodeCount + 1
    basePts := if c.basePts < 0 then pts else c.basePts }
  let tried ← shouldEncode config c pts
  match tried, picture with
  | true, some content =>
    let ts ← int64 (pts - c.basePts)
    let timeAt ← coverPts2sec ts config.timeBase
    let frameInfo := ⟨content, timeAt⟩
    .ok { c with
      encodeCount := c.encodeCount + 1
      lastPts := pts
      lastEncodeIndex := c.decodeCount
      output := c.output ++ [frameInfo]
      shots := c.shots ++ [⟨pts, picture, tried, some frameInfo⟩] }
  | _, _ => .ok { c with shots := c.shots ++ [⟨pts, picture, tried, none⟩] }

/-- The loop. Where nothing was decoded, `continue` skips the test at its end. -/
def cutLoop (c : Cutter γ) : List (Packet γ) → Except (Stop Unit) (Cutter γ)
  | [] => .ok c
  | .video _ .error :: packets | .video _ .noFrame :: packets => cutLoop c packets
  | .other :: packets => if c.encodeCount ≥ config.maxFrames then .ok c else cutLoop c packets
  | .video pts (.frame picture) :: packets => do
    let c ← cutFrame config c pts picture
    if c.encodeCount ≥ config.maxFrames then .ok c else cutLoop c packets

/-- What is returned, and `output`. `opened` tells whether all that comes before the loop
succeeds. -/
def cutFrames (opened : Bool) (packets : List (Packet γ)) :
    Except (Stop Unit) (Bool × List (CutFrameInfo γ)) := do
  if !opened then .ok (false, [])
  else
    let c ← cutLoop config {} packets
    .ok (true, c.output)

end CppBase.Mediaproc.CutFrames
