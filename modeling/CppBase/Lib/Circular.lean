import Mathlib.Data.Nat.ModEq
import Mathlib.Logic.Function.Basic

/-! Bounded queues, and the circle of cells that usually represents one: the
items are the cells from a start position on, around the end of the array. -/

namespace CppBase.Lib

variable {V : Type}

def offer (cap : ℕ) (q : List V) (v : V) : Bool × List V :=
  if q.length < cap then (true, q ++ [v]) else (false, q)

def poll (q : List V) : Option V × List V := (q.head?, q.tail)

/-- The cells met on a walk of `len` steps around a circle of `m`, from `start` on. -/
def window (cells : ℕ → V) (m : ℕ) : ℕ → ℕ → List V
  | _, 0 => []
  | start, len + 1 => cells (start % m) :: window cells m (start + 1) len

variable {cells : ℕ → V} {m start len : ℕ}

@[simp] theorem length_window : (window cells m start len).length = len := by
  induction len generalizing start with
  | zero => rfl
  | succ len ih => simp [window, ih]

theorem window_mod : window cells m (start % m) len = window cells m start len := by
  induction len generalizing start with
  | zero => rfl
  | succ len ih =>
    have hnext : window cells m (start % m + 1) len = window cells m (start + 1) len := by
      rw [← ih, Nat.mod_add_mod, ih]
    rw [window, window, Nat.mod_mod, hnext]

theorem window_snoc :
    window cells m start (len + 1) = window cells m start len ++ [cells ((start + len) % m)] := by
  induction len generalizing start with
  | zero => rfl
  | succ len ih => rw [window, ih, window, List.cons_append, Nat.add_right_comm start 1 len, Nat.add_assoc]

theorem window_update {c : ℕ} (v : V) (h : ∀ i < len, (start + i) % m ≠ c) :
    window (Function.update cells c v) m start len = window cells m start len := by
  induction len generalizing start with
  | zero => rfl
  | succ len ih =>
    have hfirst : start % m ≠ c := h 0 (Nat.succ_pos _)
    rw [window, window, Function.update_of_ne hfirst, ih]
    intro i hi
    rw [Nat.add_right_comm, Nat.add_assoc]
    exact h (i + 1) (by omega)

/-- A walk shorter than the circle does not meet the cell where it stops. -/
theorem window_update_end (h : len < m) (v : V) :
    window (Function.update cells ((start + len) % m) v) m start len = window cells m start len := by
  refine window_update v ?_
  intro i hi he
  have : i = len := (Nat.ModEq.add_left_cancel' start he).eq_of_lt_of_lt (hi.trans h) h
  omega

end CppBase.Lib
