import CppBase.Sanity.Sample
import CppBase.Sanity.WellFormed

/-! `ver` counts the changes of a task hash. -/

namespace CppBase.TaskStore

open CppBase.Lib

def anyEvent (_ : Store) (_ : Event) : Prop := True

/-- A hash that is left alone, one whose `ver` goes up by one, or a new one at version 1. -/
def VerStep (o o' : Option TaskHash) : Prop :=
  o' = o ∨
  (∃ h h' q, o = some h ∧ o' = some h' ∧ h.ver = some (.num q) ∧ h'.ver = some (.num (q + 1))) ∨
  (o = none ∧ ∃ h', o' = some h' ∧ h'.ver = some (.num 1))

theorem TaskStep.verStep {k : String} {c : Call} {o o' : Option TaskHash}
    (hst : TaskStep k (.call c) o o') (ho : ∀ h, o = some h → h.Wf) : VerStep o o' := by
  cases hst with
  | same => exact Or.inl rfl
  | @command c _ h _ hw =>
    cases o with
    | none =>
      have hv := c.settle_ver (c.written_none hw).1
      rw [zero_add] at hv
      exact Or.inr (Or.inr ⟨rfl, _, rfl, hv⟩)
    | some h₀ =>
      obtain ⟨q, hq⟩ := (ho h₀ rfl).ver
      have hv := c.settle_ver ((c.written_some hw).1.trans hq)
      exact Or.inr (Or.inl ⟨h₀, _, q, rfl, rfl, hq, hv⟩)
  | @ownership c h h' hm =>
    obtain ⟨q, hq⟩ := (ho h rfl).ver
    exact Or.inr (Or.inl ⟨h, h', q, rfl, rfl, hq, hm.ver hq⟩)

/-- The hash has been changed since, and its `ver` shows it. -/
def VerLt (h h' : TaskHash) : Prop :=
  ∃ q q', h.ver = some (.num q) ∧ h'.ver = some (.num q') ∧ q < q'

theorem VerLt.trans {h₁ h₂ h₃ : TaskHash} (h : VerLt h₁ h₂) (h' : VerLt h₂ h₃) : VerLt h₁ h₃ := by
  obtain ⟨q₁, q₂, e₁, e₂, hlt⟩ := h
  obtain ⟨q₂', q₃, e₂', e₃, hlt'⟩ := h'
  rw [e₂, Option.some.injEq, Val.num.injEq] at e₂'
  subst e₂'
  exact ⟨q₁, q₃, e₁, e₃, hlt.trans hlt'⟩

theorem ver_step {s : Store} (hs : s.Wf) {key : String} {h : TaskHash} (hk : s.task key = some h)
    {e : Event} (he : e ≠ .expire key) :
    ∃ h', (s.next e).task key = some h' ∧ (h' = h ∨ VerLt h h') := by
  cases e with
  | call c =>
    rcases (next_taskStep s (.call c) key).verStep (hs key) with ho | ⟨h₁, h', q, ho, ho', hq, hq'⟩ | ⟨ho, -⟩
    · exact ⟨h, by rw [ho, hk], Or.inl rfl⟩
    · rw [hk, Option.some.injEq] at ho
      subst ho
      exact ⟨h', ho', Or.inr ⟨q, q + 1, hq, hq', lt_add_one q⟩⟩
    · rw [hk] at ho
      cases ho
  | expire k =>
    have hne : key ≠ k := fun h => he (by rw [h])
    exact ⟨h, by simp [Store.next, Store.expireKey, Function.update_of_ne hne, hk], Or.inl rfl⟩

/-- Along a run in which the key does not expire, the hash is either the same or its `ver` has grown. -/
theorem ver_run {ok : Store → Event → Prop} {s s' : Store} {es : List Event} (hrun : Run Store.next ok s es s')
    (hs : s.Wf) {key : String} (hne : .expire key ∉ es) {h : TaskHash} (hk : s.task key = some h) :
    ∃ h', s'.task key = some h' ∧ (h' = h ∨ VerLt h h') := by
  induction hrun generalizing h with
  | nil s => exact ⟨h, hk, Or.inl rfl⟩
  | @cons s t e es hok hrun ih =>
    rw [List.mem_cons, not_or] at hne
    obtain ⟨h₁, hk₁, hstep⟩ := ver_step hs hk (Ne.symm hne.1)
    obtain ⟨h', hk', hrest⟩ := ih (hs.next e) hne.2 hk₁
    refine ⟨h', hk', ?_⟩
    rcases hstep with rfl | hlt
    · exact hrest
    · rcases hrest with rfl | hlt'
      · exact Or.inr hlt
      · exact Or.inr (hlt.trans hlt')

/-- In every store reached from the empty one, a script either leaves a task hash
alone or increments its `ver`, none fails for want of a `ver`, and as long as the
key does not expire two hashes with the same `ver` are the same hash. -/
theorem ver_identifies_content {es : List Event} {s : Store} (hrun : Run Store.next anyEvent Store.empty es s) :
    (∀ (c : Call) (key : String), VerStep (s.task key) ((c.run s).task key)) ∧
    (∀ c : Call, (exec c.prog s).1 ≠ .error .arithmetic) ∧
    (∀ key es' s' h h', Run Store.next anyEvent s es' s' → .expire key ∉ es' →
      s.task key = some h → s'.task key = some h' → h.ver = h'.ver → h = h') := by
  have hs := wf_of_run hrun
  refine ⟨fun c key => (next_taskStep s (.call c) key).verStep (hs key), fun c => c.prog_arith hs, ?_⟩
  intro key es' s' h h' hrun' hne hk hk' hver
  obtain ⟨h₁, hk₁, hcase⟩ := ver_run hrun' hs hne hk
  rw [hk', Option.some.injEq] at hk₁
  subst hk₁
  rcases hcase with rfl | ⟨q, q', hq, hq', hlt⟩
  · rfl
  · rw [hq, hq', Option.some.injEq, Val.num.injEq] at hver
    exact absurd hver hlt.ne

theorem ver_identifies_reload :
    VerStep (((Sample.startCall "A" "x" 1).run Store.empty).task "task:x")
      (((Sample.loadAllCall "A").run ((Sample.startCall "A" "x" 1).run Store.empty)).task "task:x") := by
  have hrun : Run Store.next anyEvent Store.empty [.call (Sample.startCall "A" "x" 1)]
      ((Sample.startCall "A" "x" 1).run Store.empty) := .cons trivial (.nil _)
  exact (ver_identifies_content hrun).1 (Sample.loadAllCall "A") "task:x"

end CppBase.TaskStore
