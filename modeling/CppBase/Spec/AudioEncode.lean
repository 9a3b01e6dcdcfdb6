import CppBase.Lib.Fallible
import Mathlib.Data.Nat.Notation

/-! `AudioEncode` and its helpers of `audioproc/ffutil.c`, over the calls into FFmpeg.
`φ` are the input frames, `α` the samples and `π` the encoded packets. -/

namespace CppBase.Mediaproc.AudioEncode

open CppBase.Lib

structure OutputFrame (α : Type) where
  samples : List α
  pts : ℕ
  deriving DecidableEq

/-- What the calls answer. `receivePacket` lists the answers of `avcodec_receive_packet`
from a sent frame to the next that asks for more input, `none` for an error. -/
structure Calls (φ α π : Type) where
  samplesAlloc : φ → Bool
  swrConvert : φ → Option (List α)
  fifoWrite : List α → Bool
  initOutputFrame : ℕ → Bool
  fifoRead : ℕ → Bool
  sendFrame : Option (OutputFrame α) → Bool
  receivePacket : Option (OutputFrame α) → List (Option π)
  writeFrame : π → Bool
  writeTrailer : Bool

/-- `sent` are the frames that the codec took, and `written` the packets in the file. -/
structure Encoder (α π : Type) where
  fifo : List α := []
  pts : ℕ := 0
  sent : List (OutputFrame α) := []
  written : List π := []
  deriving DecidableEq

/-- How a method ends other than with `true`: with `false`, or not at all. -/
inductive Stop (α π : Type) where
  | fails (e : Encoder α π)
  | endless
  deriving DecidableEq

variable {φ α π : Type} (calls : Calls φ α π) (frameSize : ℕ)

section Helpers

def convertAndStore (e : Encoder α π) (frame : φ) : Except (Stop α π) (Encoder α π) :=
  if !calls.samplesAlloc frame then .error (.fails e)
  else
    match calls.swrConvert frame with
    | none => .error (.fails e)
    | some [] => .ok e
    | some samples =>
      if calls.fifoWrite samples then .ok { e with fifo := e.fifo ++ samples } else .error (.fails e)

def writePacket (e : Encoder α π) : Option π → Except (Stop α π) (Encoder α π)
  | none => .error (.fails e)
  | some packet =>
    if calls.writeFrame packet then .ok { e with written := e.written ++ [packet] } else .error (.fails e)

def encodeAudioFrame (e : Encoder α π) (frame : Option (OutputFrame α)) : Except (Stop α π) (Encoder α π) :=
  if calls.sendFrame frame then
    runAll (writePacket calls) { e with sent := e.sent ++ frame.toList } (calls.receivePacket frame)
  else .error (.fails e)

end Helpers

section Methods

/-- The body of both loops: `size` samples are taken out of the queue and encoded. -/
def encodeNext (e : Encoder α π) (size : ℕ) : Except (Stop α π) (Encoder α π) :=
  if calls.initOutputFrame size && calls.fifoRead size then
    let outputFrame := ⟨e.fifo.take size, e.pts⟩
    encodeAudioFrame calls { e with fifo := e.fifo.drop size, pts := e.pts + size } (some outputFrame)
  else .error (.fails e)

def writeLoop : ℕ → Encoder α π → Except (Stop α π) (Encoder α π)
  | fuel, e =>
    if e.fifo.length ≥ frameSize then
      match fuel with
      | 0 => .error .endless
      | fuel + 1 => do
        let e ← encodeNext calls e (min e.fifo.length frameSize)
        writeLoop fuel e
    else .ok e

def write (e : Encoder α π) (frame : Option φ) : Except (Stop α π) (Encoder α π) := do
  let e ← match frame with
    | some frame => convertAndStore calls e frame
    | none => .ok e
  writeLoop calls frameSize e.fifo.length e

def flushLoop : ℕ → Encoder α π → Except (Stop α π) (Encoder α π)
  | fuel, e =>
    if e.fifo.length > 0 then
      match fuel with
      | 0 => .error .endless
      | fuel + 1 => do
        let e ← encodeNext calls e e.fifo.length
        flushLoop fuel e
    else .ok e

/-- Its second loop has one round, since `encode_audio_frame` leaves `data_written` at zero. -/
def flushEncoder (e : Encoder α π) : Except (Stop α π) (Encoder α π) := do
  let e ← flushLoop calls e.fifo.length e
  encodeAudioFrame calls e none

def writeTrailer (e : Encoder α π) : Except (Stop α π) (Encoder α π) := do
  let e ← flushEncoder calls e
  if calls.writeTrailer then .ok e else .error (.fails e)

/-- Calls of `write` one after the other, then `writeTrailer`. -/
def encodeAll (frames : List (Option φ)) : Except (Stop α π) (Encoder α π) := do
  let e ← runAll (write calls frameSize) {} frames
  writeTrailer calls e

end Methods

end CppBase.Mediaproc.AudioEncode
