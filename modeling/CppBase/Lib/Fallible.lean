import CppBase.Lib.Machine
import Mathlib.Logic.Function.Basic

/-! Machines whose steps may fail, where a failure ends the run. -/

namespace CppBase.Lib

variable {σ ε φ : Type}

@[simp] theorem ok_bind {α β : Type} (a : α) (f : α → Except φ β) : (.ok a >>= f) = f a := rfl

@[simp] theorem error_bind {α β : Type} (e : φ) (f : α → Except φ β) : (.error e >>= f) = .error e := rfl

theorem exists_of_bind_ok {α β : Type} {x : Except φ α} {f : α → Except φ β} {b : β} (h : (x >>= f) = .ok b) :
    ∃ a, x = .ok a ∧ f a = .ok b := by
  cases x with
  | ok a => exact ⟨a, rfl, h⟩
  | error e => cases h

/-- Take the steps for `es` one after the other, up to the first that fails. -/
def runAll (step : σ → ε → Except φ σ) : σ → List ε → Except φ σ
  | s, [] => .ok s
  | s, e :: es =>
    match step s e with
    | .ok t => runAll step t es
    | .error f => .error f

variable {step : σ → ε → Except φ σ} {s t u : σ} {e : ε} {es fs : List ε}

@[simp] theorem runAll_nil : runAll step s [] = .ok s := rfl

theorem runAll_cons (h : step s e = .ok t) : runAll step s (e :: es) = runAll step t es := by
  rw [runAll, h]

theorem runAll_cons_error {f : φ} (h : step s e = .error f) : runAll step s (e :: es) = .error f := by
  rw [runAll, h]

theorem runAll_cons_ok (h : runAll step s (e :: es) = .ok u) :
    ∃ t, step s e = .ok t ∧ runAll step t es = .ok u := by
  cases hs : step s e with
  | ok t => exact ⟨t, rfl, by rwa [runAll_cons hs] at h⟩
  | error f =>
    rw [runAll_cons_error hs] at h
    cases h

theorem runAll_append (h : runAll step s es = .ok t) : runAll step s (es ++ fs) = runAll step t fs := by
  induction es generalizing s with
  | nil =>
    obtain rfl : s = t := by simpa using h
    rfl
  | cons e es ih =>
    obtain ⟨v, h1, h2⟩ := runAll_cons_ok h
    rw [List.cons_append, runAll_cons h1, ih h2]

theorem runAll_singleton : runAll step s [e] = step s e := by
  rw [runAll]
  cases step s e with
  | ok t => rfl
  | error f => rfl

theorem runAll_append_bind : runAll step s (es ++ fs) = runAll step s es >>= fun t => runAll step t fs := by
  induction es generalizing s with
  | nil => rfl
  | cons e es ih =>
    rw [List.cons_append]
    cases h : step s e with
    | ok t => rw [runAll_cons h, runAll_cons h, ih]
    | error f => rw [runAll_cons_error h, runAll_cons_error h, error_bind]

/-- The state that a run that goes through passes in between. -/
theorem exists_of_runAll_append (h : runAll step s (es ++ fs) = .ok u) :
    ∃ t, runAll step s es = .ok t ∧ runAll step t fs = .ok u := by
  induction es generalizing s with
  | nil => exact ⟨s, rfl, h⟩
  | cons e es ih =>
    obtain ⟨v, hstep, hrest⟩ := runAll_cons_ok h
    obtain ⟨t, ht, hu⟩ := ih hrest
    exact ⟨t, by rw [runAll_cons hstep, ht], hu⟩

/-- What every step that succeeds preserves holds wherever a run gets to. -/
theorem runAll_invariant {I : σ → Prop} (hstep : ∀ s e t, I s → step s e = .ok t → I t)
    (h : runAll step s es = .ok t) (hs : I s) : I t := by
  induction es generalizing s with
  | nil =>
    obtain rfl : s = t := by simpa using h
    exact hs
  | cons e es ih =>
    obtain ⟨v, h1, h2⟩ := runAll_cons_ok h
    exact ih h2 (hstep s e v hs h1)

theorem runAll_ok_mem (h : runAll step s es = .ok u) (he : e ∈ es) : ∃ v t, step v e = .ok t := by
  induction es generalizing s with
  | nil => cases he
  | cons f es ih =>
    obtain ⟨t, hstep, hrest⟩ := runAll_cons_ok h
    obtain rfl | he := List.mem_cons.mp he
    · exact ⟨s, t, hstep⟩
    · exact ih hrest he

/-- Where no step fails, a run is that of the machine that takes the same steps. -/
theorem runAll_eq_foldl {next : σ → ε → σ} (hstep : ∀ s, ∀ e ∈ es, step s e = .ok (next s e)) :
    runAll step s es = .ok (es.foldl next s) := by
  induction es generalizing s with
  | nil => rfl
  | cons e es ih =>
    rw [runAll_cons (hstep s e List.mem_cons_self)]
    exact ih fun s e' he' => hstep s e' (List.mem_cons_of_mem e he')

/-- Where each step is that of a machine that never fails, or fails with `f`, so is a run. -/
theorem runAll_or_error {next : σ → ε → σ} {f : φ}
    (hstep : ∀ s, ∀ e ∈ es, step s e = .error f ∨ step s e = .ok (next s e)) :
    runAll step s es = .error f ∨ runAll step s es = .ok (es.foldl next s) := by
  induction es generalizing s with
  | nil => exact .inr rfl
  | cons e es ih =>
    obtain herr | hok := hstep s e List.mem_cons_self
    · exact .inl (runAll_cons_error herr)
    · rw [runAll_cons hok]
      exact ih fun s e' he' => hstep s e' (List.mem_cons_of_mem e he')

/-- A machine keeps to a reference exactly as long as every step is safe there, where `I`
holds in step with it as long as it does. -/
theorem runAll_tracks_iff {τ : Type} {next : τ → ε → τ} {I R : σ → τ → Prop} {safe : τ → ε → Prop}
    (hI : ∀ s x, I s x → R s x) (hsafe : ∀ s x e, I s x → safe x e → ∃ t, step s e = .ok t ∧ I t (next x e))
    (hwrong : ∀ s x e t, I s x → ¬ safe x e → step s e = .ok t → ¬ R t (next x e)) {x : τ} (hs : I s x) :
    (∀ pre post, es = pre ++ post → ∃ t, runAll step s pre = .ok t ∧ R t (pre.foldl next x)) ↔
      ∀ pre e post, es = pre ++ e :: post → safe (pre.foldl next x) e := by
  induction es generalizing s x with
  | nil =>
    refine iff_of_true (fun pre post heq => ?_) fun pre e post heq => by simp at heq
    obtain ⟨rfl, rfl⟩ := List.append_eq_nil_iff.mp heq.symm
    exact ⟨s, rfl, hI s x hs⟩
  | cons e es ih =>
    by_cases hsafe' : safe x e
    · obtain ⟨t, hstep, ht⟩ := hsafe s x e hs hsafe'
      constructor
      · intro h pre e' post heq
        cases pre with
        | nil =>
          obtain ⟨rfl, -⟩ := List.cons.inj heq
          exact hsafe'
        | cons f pre =>
          obtain ⟨rfl, rfl⟩ := List.cons.inj heq
          refine (ih ht).mp (fun pre' post' heq' => ?_) pre e' post rfl
          obtain ⟨u, hrun, hu⟩ := h (e :: pre') post' (by rw [heq', List.cons_append])
          exact ⟨u, by rwa [runAll_cons hstep] at hrun, hu⟩
      · intro h pre post heq
        cases pre with
        | nil => exact ⟨s, rfl, hI s x hs⟩
        | cons f pre =>
          obtain ⟨rfl, rfl⟩ := List.cons.inj heq
          rw [runAll_cons hstep]
          exact (ih ht).mpr (fun pre' e' post' heq' => h (e :: pre') e' post' (by rw [heq', List.cons_append]))
            pre post rfl
    · refine iff_of_false (fun h => ?_) fun h => hsafe' (h [] e es rfl)
      obtain ⟨t, hrun, ht⟩ := h [e] es rfl
      obtain ⟨u, hstep, hrest⟩ := runAll_cons_ok hrun
      obtain rfl : u = t := by simpa using hrest
      exact hwrong s x e u hs hsafe' hstep ht

/-- Each step of the run, as far as it gets, is taken in a state that meets `C`. -/
def Along (step : σ → ε → Except φ σ) (C : σ → ε → Prop) (s : σ) (es : List ε) : Prop :=
  ∀ pre e post u, es = pre ++ e :: post → runAll step s pre = .ok u → C u e

variable {C : σ → ε → Prop}

theorem along_nil : Along step C s [] := by
  intro pre e post u heq
  simp at heq

theorem along_cons (h : step s e = .ok t) : Along step C s (e :: es) ↔ C s e ∧ Along step C t es := by
  constructor
  · intro hC
    refine ⟨hC [] e es s rfl rfl, ?_⟩
    rintro pre e' post u rfl hpre
    exact hC (e :: pre) e' post u rfl (by rw [runAll_cons h, hpre])
  · rintro ⟨he, hC⟩ pre e' post u heq hpre
    cases pre with
    | nil =>
      obtain ⟨rfl, -⟩ := List.cons.inj heq
      obtain rfl : s = u := by simpa using hpre
      exact he
    | cons f pre =>
      obtain ⟨rfl, rfl⟩ := List.cons.inj heq
      exact hC pre e' post u rfl (by rwa [runAll_cons h] at hpre)

theorem Along.of_append (h : Along step C s (es ++ fs)) : Along step C s es := by
  rintro pre e post u rfl hpre
  exact h pre e (post ++ fs) u (by simp) hpre

theorem Along.append_right (h : Along step C s (es ++ fs)) (hes : runAll step s es = .ok t) : Along step C t fs := by
  rintro pre e post u rfl hpre
  exact h (es ++ pre) e post u (by simp) (by rw [runAll_append hes, hpre])

/-- A run along `C` goes through beside a machine that never fails, when each step does. -/
theorem Along.simulates {α : Type} {abs : α → ε → α} {R : σ → α → Prop} (hC : Along step C s es)
    (hstep : ∀ s x e, R s x → C s e → ∃ t, step s e = .ok t ∧ R t (abs x e)) {x : α} (h : R s x) :
    ∃ t, runAll step s es = .ok t ∧ R t (es.foldl abs x) := by
  induction es generalizing s x with
  | nil => exact ⟨s, rfl, h⟩
  | cons e es ih =>
    obtain ⟨v, hv, hR⟩ := hstep s x e h (hC [] e es s rfl rfl)
    rw [runAll_cons hv]
    exact ih ((along_cons hv).mp hC).2 hR

/-- A run along `C` goes through and keeps `I`, when each step does. -/
theorem Along.runAll_ok {I : σ → Prop} (hC : Along step C s es)
    (hstep : ∀ s e, I s → C s e → ∃ t, step s e = .ok t ∧ I t) (hs : I s) : ∃ t, runAll step s es = .ok t ∧ I t :=
  @Along.simulates _ _ _ _ _ _ _ Unit (fun _ _ => ()) (fun s _ => I s) hC (fun s _ e => hstep s e) () hs

section Logged

variable {ι ω α : Type} {call : σ → ι → Except φ (ω × σ)} {abs : α → ι → ω × α} {R : σ → α → Prop}

/-- A machine that answers each input, with the answers so far. -/
def logged (call : σ → ι → Except φ (ω × σ)) (s : σ × List ω) (i : ι) : Except φ (σ × List ω) :=
  call s.1 i >>= fun r => .ok (r.2, s.2 ++ [r.1])

/-- Beside a machine that never fails and answers alike, a run along `C` goes
through with the same answers. -/
theorem Along.answers_logged {C : σ → ι → Prop} {log : List ω} {is : List ι} {x : α}
    (hC : Along (logged call) (fun s i => C s.1 i) (s, log) is)
    (hstep : ∀ s x i, R s x → C s i → ∃ t, call s i = .ok ((abs x i).1, t) ∧ R t (abs x i).2) (h : R s x) :
    ∃ t, runAll (logged call) (s, log) is = .ok (t, log ++ answers abs x is) ∧
      R t (is.foldl (fun x i => (abs x i).2) x) := by
  induction is generalizing s log x with
  | nil => exact ⟨s, by simp [answers], h⟩
  | cons i is ih =>
    obtain ⟨t, ht, hR⟩ := hstep s x i h (hC [] i is (s, log) rfl rfl)
    have hlog : logged call (s, log) i = .ok (t, log ++ [(abs x i).1]) := by
      rw [logged, ht, ok_bind]
    obtain ⟨u, hu, hRu⟩ := ih ((along_cons hlog).mp hC).2 hR
    refine ⟨u, ?_, hRu⟩
    rw [runAll_cons hlog, hu, answers, List.append_assoc, List.singleton_append]

end Logged

end CppBase.Lib
