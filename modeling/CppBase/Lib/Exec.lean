import Mathlib.Logic.Function.Basic

/-! Programs that read and write one state and may fail, where a failure keeps
every write made before it. `exec` runs such a program; its equations let a
proof execute a `do` block symbolically. -/

namespace CppBase.Lib

abbrev Prog (ε σ : Type) := ExceptT ε (StateM σ)

variable {ε σ α β : Type}

def exec (m : Prog ε σ α) (s : σ) : Except ε α × σ := StateT.run (ExceptT.run m) s

def gets (f : σ → α) : Prog ε σ α := ExceptT.mk fun s => (.ok (f s), s)

def modifies (f : σ → σ) : Prog ε σ Unit := ExceptT.mk fun s => (.ok (), f s)

/-- Give up, leaving the state as it is. -/
def fails (e : ε) : Prog ε σ α := ExceptT.mk fun s => (.error e, s)

/-- Replace the current state by an update that may refuse it. -/
def attempt (f : σ → Except ε σ) : Prog ε σ Unit := ExceptT.mk fun s =>
  match f s with
  | .ok t => (.ok (), t)
  | .error e => (.error e, s)

@[simp] theorem exec_pure (a : α) (s : σ) : exec (pure a : Prog ε σ α) s = (.ok a, s) := rfl

@[simp] theorem exec_gets (f : σ → α) (s : σ) : exec (gets f : Prog ε σ α) s = (.ok (f s), s) := rfl

@[simp] theorem exec_modifies (f : σ → σ) (s : σ) :
    exec (modifies f : Prog ε σ Unit) s = (.ok (), f s) := rfl

@[simp] theorem exec_fails (e : ε) (s : σ) : exec (fails e : Prog ε σ α) s = (.error e, s) := rfl

theorem exec_attempt_ok {f : σ → Except ε σ} {s t : σ} (h : f s = .ok t) : exec (attempt f) s = (.ok (), t) := by
  simp only [exec, attempt, ExceptT.run_mk, StateT.run, h]

theorem exec_bind (m : Prog ε σ α) (f : α → Prog ε σ β) (s : σ) :
    exec (m >>= f) s =
      match exec m s with
      | (.ok a, t) => exec (f a) t
      | (.error e, t) => (.error e, t) := by
  show StateT.run (ExceptT.run (m >>= f)) s = _
  unfold exec
  rw [ExceptT.run_bind, StateT.run_bind]
  generalize StateT.run (ExceptT.run m) s = r
  obtain ⟨o, t⟩ := r
  cases o <;> rfl

theorem exec_bind_ok {m : Prog ε σ α} {s t : σ} {a : α} (h : exec m s = (.ok a, t))
    (f : α → Prog ε σ β) : exec (m >>= f) s = exec (f a) t := by
  rw [exec_bind, h]

theorem exec_bind_error {m : Prog ε σ α} {s t : σ} {e : ε} (h : exec m s = (.error e, t))
    (f : α → Prog ε σ β) : exec (m >>= f) s = (.error e, t) := by
  rw [exec_bind, h]

/-- A sequence that fails does so in its first part or, that one done, in its second. -/
theorem error_of_bind {m : Prog ε σ α} {f : α → Prog ε σ β} {s : σ} {e : ε}
    (h : (exec (m >>= f) s).1 = .error e) :
    (exec m s).1 = .error e ∨ ∃ a t, exec m s = (.ok a, t) ∧ (exec (f a) t).1 = .error e := by
  rw [exec_bind] at h
  generalize exec m s = r at h ⊢
  obtain ⟨o, t⟩ := r
  cases o with
  | ok a => exact Or.inr ⟨a, t, rfl, h⟩
  | error e' => exact Or.inl (by simpa using h)

theorem ok_of_bind {m : Prog ε σ α} {f : α → Prog ε σ β} {s t : σ} {b : β} (h : exec (m >>= f) s = (.ok b, t)) :
    ∃ a u, exec m s = (.ok a, u) ∧ exec (f a) u = (.ok b, t) := by
  rw [exec_bind] at h
  generalize exec m s = r at h ⊢
  obtain ⟨o, u⟩ := r
  cases o with
  | ok a => exact ⟨a, u, rfl, h⟩
  | error e => simp at h

theorem exec_map (f : α → β) (m : Prog ε σ α) (s : σ) :
    exec (f <$> m) s =
      match exec m s with
      | (.ok a, t) => (.ok (f a), t)
      | (.error e, t) => (.error e, t) := by
  rw [← bind_pure_comp, exec_bind]
  rfl

theorem exec_discard (m : Prog ε σ α) (s : σ) :
    exec (discard m) s = ((exec m s).1.map fun _ => (), (exec m s).2) := by
  show exec ((fun _ => ()) <$> m) s = _
  rw [exec_map]
  obtain ⟨o, t⟩ := exec m s
  cases o <;> rfl

@[simp] theorem exec_ite (c : Prop) [Decidable c] (m n : Prog ε σ α) (s : σ) :
    exec (if c then m else n) s = if c then exec m s else exec n s := by
  split <;> rfl

end CppBase.Lib
