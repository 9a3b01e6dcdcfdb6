import Mathlib.Data.List.Basic

/-! Runs of a deterministic machine driven by events, where `ok` says which
events the environment may produce in which state. -/

namespace CppBase.Lib

variable {σ ε : Type}

/-- `Run next ok s es t`: from `s`, the events `es` are allowed one after the
other and lead to `t`. -/
inductive Run (next : σ → ε → σ) (ok : σ → ε → Prop) : σ → List ε → σ → Prop
  | nil (s : σ) : Run next ok s [] s
  | cons {s t : σ} {e : ε} {es : List ε} :
      ok s e → Run next ok (next s e) es t → Run next ok s (e :: es) t

variable {next : σ → ε → σ} {ok : σ → ε → Prop}

/-- What every allowed event preserves holds in every state a run reaches. -/
theorem Run.invariant {I : σ → Prop} (hstep : ∀ s e, ok s e → I s → I (next s e))
    {s t : σ} {es : List ε} (h : Run next ok s es t) (hs : I s) : I t := by
  induction h with
  | nil s => exact hs
  | cons hok _ ih => exact ih (hstep _ _ hok hs)

theorem Run.append {s t u : σ} {es fs : List ε} (h : Run next ok s es t) (h' : Run next ok t fs u) :
    Run next ok s (es ++ fs) u := by
  induction h with
  | nil s => exact h'
  | cons hok _ ih => exact .cons hok (ih h')

theorem Run.split {s u : σ} {es fs : List ε} (h : Run next ok s (es ++ fs) u) :
    ∃ t, Run next ok s es t ∧ Run next ok t fs u := by
  induction es generalizing s with
  | nil => exact ⟨s, .nil s, h⟩
  | cons e es ih =>
    obtain _ | ⟨hok, hrest⟩ := h
    obtain ⟨t, h1, h2⟩ := ih hrest
    exact ⟨t, .cons hok h1, h2⟩

/-- A machine that follows every allowed event in step follows every run. -/
theorem Run.simulates {α : Type} {abs : α → ε → α} {R : α → σ → Prop}
    (hstep : ∀ x s e, ok s e → R x s → R (abs x e) (next s e)) {s t : σ} {es : List ε}
    (h : Run next ok s es t) {x : α} (hx : R x s) : R (es.foldl abs x) t := by
  induction h generalizing x with
  | nil s => exact hx
  | cons hok _ ih => exact ih (hstep _ _ _ hok hx)

/-- A run that starts inside `P` and ends outside it has an event at which it
leaves `P`. -/
theorem Run.crossing {P : σ → Prop} {s t : σ} {es : List ε} (h : Run next ok s es t)
    (hs : P s) (ht : ¬ P t) :
    ∃ pre e post u, es = pre ++ e :: post ∧ Run next ok s pre u ∧ ok u e ∧ P u ∧
      ¬ P (next u e) ∧ Run next ok (next u e) post t := by
  induction h with
  | nil s => exact absurd hs ht
  | @cons s t e es hok hrun ih =>
    by_cases hn : P (next s e)
    · obtain ⟨pre, e', post, u, rfl, h1, h2, h3, h4, h5⟩ := ih hn ht
      exact ⟨e :: pre, e', post, u, rfl, .cons hok h1, h2, h3, h4, h5⟩
    · exact ⟨[], e, es, s, rfl, .nil s, hok, hs, hn, hrun⟩

section Solo

/-- `s` leads to `t` by some number of events `e` and nothing else. -/
def Solo (next : σ → ε → σ) (ok : σ → ε → Prop) (e : ε) (s t : σ) : Prop :=
  ∃ k, Run next ok s (List.replicate k e) t

theorem Solo.refl {e : ε} (s : σ) : Solo next ok e s s := ⟨0, .nil s⟩

theorem Solo.step {e : ε} {s t : σ} (hok : ok s e) (h : Solo next ok e (next s e) t) : Solo next ok e s t := by
  obtain ⟨k, hk⟩ := h
  exact ⟨k + 1, .cons hok hk⟩

theorem Solo.trans {e : ε} {s t u : σ} (h : Solo next ok e s t) (h' : Solo next ok e t u) : Solo next ok e s u := by
  obtain ⟨j, hj⟩ := h
  obtain ⟨k, hk⟩ := h'
  refine ⟨j + k, ?_⟩
  rw [← List.replicate_append_replicate]
  exact hj.append hk

end Solo

section Answers

variable {ι ω α : Type}

def answers (step : σ → ι → ω × σ) : σ → List ι → List ω
  | _, [] => []
  | s, i :: is => (step s i).1 :: answers step (step s i).2 is

/-- Machines that stay related and answer each of some inputs alike answer these
inputs alike. -/
theorem answers_eq_of_mem {step : σ → ι → ω × σ} {abs : α → ι → ω × α} {R : α → σ → Prop} {is : List ι}
    (hstep : ∀ x s, ∀ i ∈ is, R x s → (step s i).1 = (abs x i).1 ∧ R (abs x i).2 (step s i).2)
    {x : α} {s : σ} (h : R x s) : answers step s is = answers abs x is := by
  induction is generalizing x s with
  | nil => rfl
  | cons i is ih =>
    obtain ⟨h1, h2⟩ := hstep x s i List.mem_cons_self h
    rw [answers, answers, h1, ih (fun x s j hj => hstep x s j (List.mem_cons_of_mem i hj)) h2]

theorem answers_eq {step : σ → ι → ω × σ} {abs : α → ι → ω × α} {R : α → σ → Prop}
    (hstep : ∀ x s i, R x s → (step s i).1 = (abs x i).1 ∧ R (abs x i).2 (step s i).2)
    {x : α} {s : σ} (h : R x s) (is : List ι) : answers step s is = answers abs x is :=
  answers_eq_of_mem (fun x s i _ => hstep x s i) h

end Answers

end CppBase.Lib
