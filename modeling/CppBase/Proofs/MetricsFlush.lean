import CppBase.Spec.MetricsBuffer
import Mathlib.Logic.Function.Iterate
import Mathlib.Order.Nat

/-! Flushes of the metrics. The counter of the loop grows while the list it is compared
with shrinks, so they meet half way. -/

namespace CppBase.AsyncCpp.MetricsBuffer

/-- How many of `n` messages one flush reports. -/
def batch (n : ℕ) : ℕ := min ((n + 1) / 2) 10000

section Flush

variable {b : Buffer} {fuel i : ℕ}

def report (b : Buffer) (n : ℕ) : Buffer := ⟨b.messages.drop n, b.reported ++ b.messages.take n⟩

theorem report_cons {msg : Message} {rest reported : List Message} {n : ℕ} :
    report ⟨rest, reported ++ [msg]⟩ n = report ⟨msg :: rest, reported⟩ (n + 1) := by
  simp [report]

@[simp] theorem report_zero : report b 0 = b := by
  simp [report]

theorem flushLoop_eq (hfuel : b.messages.length ≤ fuel) :
    flushLoop fuel i i b =
      (i + min ((b.messages.length - i + 1) / 2) (10000 - i),
        report b (min ((b.messages.length - i + 1) / 2) (10000 - i))) := by
  induction fuel generalizing i b with
  | zero => simp [flushLoop, Nat.le_zero.mp hfuel]
  | succ fuel ih =>
    obtain ⟨messages, reported⟩ := b
    rw [flushLoop]
    dsimp only at hfuel ⊢
    split_ifs with hgo
    · cases messages with
      | nil => exact absurd hgo.1 (Nat.not_lt_zero i)
      | cons msg rest =>
        simp only [List.length_cons] at hfuel hgo ⊢
        -- the list is one shorter and the counter one larger, so two fewer are between them
        have hn : min ((rest.length + 1 - i + 1) / 2) (10000 - i) =
            min ((rest.length - (i + 1) + 1) / 2) (10000 - (i + 1)) + 1 := by
          omega
        rw [ih (Nat.le_of_succ_le_succ hfuel), report_cons, hn]
        simp only [Prod.mk.injEq, and_true]
        omega
    · have hn : min ((messages.length - i + 1) / 2) (10000 - i) = 0 := by
        omega
      rw [hn, report_zero]
      rfl

theorem flushMsg_eq (b : Buffer) :
    flushMsg b = (batch b.messages.length, report b (batch b.messages.length)) := by
  simp [flushMsg, flushLoop_eq, batch]

/-- A flush reports the oldest `min n 10000` of `n` messages exactly if there is at most
one, or so many that the limit comes before the middle. -/
theorem flushMsg_drains_iff (b : Buffer) :
    flushMsg b = (min b.messages.length 10000, report b (min b.messages.length 10000)) ↔
      b.messages.length ≤ 1 ∨ 19999 ≤ b.messages.length := by
  rw [flushMsg_eq]
  constructor
  · intro h
    have hn : batch b.messages.length = min b.messages.length 10000 := congrArg Prod.fst h
    rw [batch] at hn
    omega
  · intro h
    have hn : batch b.messages.length = min b.messages.length 10000 := by
      rw [batch]
      omega
    rw [hn]

/-- Of two messages the second stays behind. -/
theorem flushMsg_leaves_one :
    flushMsg ⟨[⟨.inner, "a", 1, 0⟩, ⟨.inner, "b", 2, 0⟩], []⟩ =
      (1, ⟨[⟨.inner, "b", 2, 0⟩], [⟨.inner, "a", 1, 0⟩]⟩) := by
  rfl

end Flush

section Runs

variable {b : Buffer}

def accepted : Buffer → List Call → List Message
  | _, [] => []
  | b, .push msg :: calls =>
    (if (pushMsg b msg).1 then [msg] else []) ++ accepted (step b (.push msg)) calls
  | b, .flush :: calls => accepted (step b .flush) calls

theorem report_split (b : Buffer) (n : ℕ) :
    (report b n).reported ++ (report b n).messages = b.reported ++ b.messages := by
  simp [report]

/-- Whatever the order of the calls, what got in is reported in order or still waits. -/
theorem run_nothing_lost (b : Buffer) (calls : List Call) :
    (calls.foldl step b).reported ++ (calls.foldl step b).messages =
      b.reported ++ b.messages ++ accepted b calls := by
  induction calls generalizing b with
  | nil => simp [accepted]
  | cons c calls ih =>
    rw [List.foldl_cons, ih]
    cases c with
    | push msg =>
      by_cases hfull : b.messages.length > 100000 <;> simp [accepted, step, pushMsg, hfull]
    | flush =>
      rw [accepted, step, flushMsg_eq, report_split]

/-- The buffer holds at most one message more than the bound that is tested. -/
theorem run_bounded (calls : List Call) (h : b.messages.length ≤ 100001) :
    (calls.foldl step b).messages.length ≤ 100001 := by
  induction calls generalizing b with
  | nil => exact h
  | cons c calls ih =>
    refine ih ?_
    cases c with
    | push msg =>
      rw [step, pushMsg]
      split_ifs with hfull
      · exact h
      · rw [List.length_append, List.length_singleton]
        omega
    | flush =>
      rw [step, flushMsg_eq, report, List.length_drop]
      omega

/-- The thread that goes on flushing reports everything. -/
theorem flush_empties {n : ℕ} (h : b.messages.length ≤ n) :
    (fun b => (flushMsg b).2)^[n] b = ⟨[], b.reported ++ b.messages⟩ := by
  induction n generalizing b with
  | zero =>
    obtain ⟨messages, reported⟩ := b
    obtain rfl : messages = [] := List.eq_nil_of_length_eq_zero (Nat.le_zero.mp h)
    simp
  | succ n ih =>
    have hlen : (report b (batch b.messages.length)).messages.length ≤ n := by
      rw [report, List.length_drop, batch]
      omega
    rw [Function.iterate_succ_apply, flushMsg_eq, ih hlen, report_split]

end Runs

end CppBase.AsyncCpp.MetricsBuffer
