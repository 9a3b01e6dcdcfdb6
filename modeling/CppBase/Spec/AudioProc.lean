import CppBase.Spec.AudioSplit
import Mathlib.Data.Rat.Floor

/-! `calcInterval` and the handler of a split request, `audioproc/main.cpp`. A duration is
a rational number of seconds that fits into an `int`. -/

namespace CppBase.Mediaproc.AudioProc

open CppBase.Lib AudioSplit

section Interval

/-- What is undefined: a remainder by zero, or an `int64_t` that overflows. -/
inductive Fault where
  | divisionByZero
  | overflow
  deriving DecidableEq

def rem (a b : ℤ) : Except Fault ℤ := if b = 0 then .error .divisionByZero else .ok (a.tmod b)

def calcRound (d : ℤ) (best : ℤ × ℤ) (i : ℤ) : Except Fault (ℤ × ℤ) := do
  let mod ← rem d i
  if mod ≥ best.1 then .ok (mod, i) else .ok best

/-- The values of `i` in `for (int i = lower; i < upper; i++)`. -/
def candidates (lower upper : ℤ) : List ℤ := (List.range (upper - lower).toNat).map fun k : ℕ => lower + k

def calcInterval (duration : ℚ) (lower upper : ℤ) : Except Fault ℤ := do
  let d := ⌈duration⌉
  let best ← runAll (calcRound d) (0, lower) (candidates lower upper)
  .ok best.2

end Interval

section Handler

variable {δ : Type}

def chooseSegtime (duration : ℚ) (lower upper : ℤ) : Except Fault ℤ :=
  if lower < upper then calcInterval duration lower upper else .ok lower

structure SplitResult (δ : Type) where
  succ : Bool := false
  dataId : String := ""
  duration : ℚ := 0
  segtime : ℤ := 0
  contents : List (List (AVFrame δ)) := []

/-- `splitAudio` of the handler. `init` tells whether the processor could be set up, and
`duration` is its `calcDuration`. -/
def splitAudio (init : Bool) (dataId : String) (duration : ℚ) (calls : Calls δ) (timeBase : AVRational)
    (decoded : List (Option (List (AVFrame δ)))) (lower upper : ℤ) : Except Fault (SplitResult δ) := do
  if !init then .ok {}
  else
    let segtime ← chooseSegtime duration lower upper
    match AudioSplit.splitAudio calls timeBase segtime [] decoded with
    | .ok contents => .ok { succ := true, dataId, duration, segtime, contents }
    | .error (.fails contents) => .ok { dataId, duration, segtime, contents }
    | .error .overflow => .error .overflow

end Handler

end CppBase.Mediaproc.AudioProc
