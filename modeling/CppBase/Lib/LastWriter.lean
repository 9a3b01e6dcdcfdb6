import Mathlib.Data.List.Perm.Basic
import Mathlib.Order.Lattice

/-! The last-writer-wins register: it keeps the write of the highest version, so
after a series of writes it does not depend on their order. -/

namespace CppBase.Lib

variable {C V : Type} [LinearOrder V] (ver : C → V)

/-- One write: it is taken if the register is empty or holds a lower version. -/
def latest : Option C → C → Option C
  | none, c => some c
  | some d, c => if ver d < ver c then some c else some d

variable {ver}

/-- What a register holds after some writes was written or there before, and
nothing written or there before has a higher version. -/
theorem foldl_latest_some {d : C} {l : List C} {o : Option C} (h : l.foldl (latest ver) o = some d) :
    (o = some d ∨ d ∈ l) ∧ (∀ c ∈ l, ver c ≤ ver d) ∧ ∀ c, o = some c → ver c ≤ ver d := by
  induction l generalizing o with
  | nil => simp_all
  | cons c l ih =>
    obtain ⟨hd, hl, ho⟩ := ih h
    cases o with
    | none =>
      have hc : ver c ≤ ver d := ho c rfl
      simp only [latest, Option.some.injEq] at hd
      refine ⟨Or.inr ?_, by simpa [hc] using hl, by simp⟩
      rcases hd with rfl | hd
      · simp
      · simp [hd]
    | some e =>
      by_cases hlt : ver e < ver c
      · have hc : ver c ≤ ver d := ho c (if_pos hlt)
        simp only [latest, if_pos hlt, Option.some.injEq] at hd
        refine ⟨Or.inr ?_, by simpa [hc] using hl, by simpa using hlt.le.trans hc⟩
        rcases hd with rfl | hd
        · simp
        · simp [hd]
      · have he : ver e ≤ ver d := ho e (if_neg hlt)
        simp only [latest, if_neg hlt] at hd
        refine ⟨?_, by simpa [(not_lt.mp hlt).trans he] using hl, by simpa using he⟩
        exact hd.imp_right fun hd => by simp [hd]

theorem latest_ne_none (o : Option C) (c : C) : latest ver o c ≠ none := by
  cases o with
  | none => simp [latest]
  | some d =>
    simp only [latest]
    split_ifs <;> simp

theorem foldl_latest_cons_ne_none (o : Option C) (c : C) (l : List C) : (c :: l).foldl (latest ver) o ≠ none := by
  induction l generalizing o c with
  | nil => exact latest_ne_none o c
  | cons d l ih => exact ih (latest ver o c) d

/-- Where different writes have different versions, the register ends with the highest. -/
theorem foldl_latest_eq {c : C} {l : List C} (hinj : ∀ c ∈ l, ∀ d ∈ l, ver c = ver d → c = d) (hc : c ∈ l)
    (hmax : ∀ d ∈ l, ver d ≤ ver c) : l.foldl (latest ver) none = some c := by
  obtain ⟨d, hd⟩ : ∃ d, l.foldl (latest ver) none = some d := by
    cases l with
    | nil => cases hc
    | cons e l => exact Option.ne_none_iff_exists'.mp (foldl_latest_cons_ne_none none e l)
  obtain ⟨hmem, hle, -⟩ := foldl_latest_some hd
  have hdl : d ∈ l := hmem.resolve_left (by simp)
  rw [hd, hinj d hdl c hc (le_antisymm (hmax d hdl) (hle c hc))]

theorem foldl_latest_perm {l₁ l₂ : List C} (hinj : ∀ c ∈ l₁, ∀ d ∈ l₁, ver c = ver d → c = d)
    (hperm : l₁.Perm l₂) : l₁.foldl (latest ver) none = l₂.foldl (latest ver) none := by
  cases hd : l₁.foldl (latest ver) none with
  | none =>
    cases l₁ with
    | nil => rw [List.nil_perm.mp hperm, List.foldl_nil]
    | cons c l => exact absurd hd (foldl_latest_cons_ne_none none c l)
  | some d =>
    obtain ⟨hmem, hle, -⟩ := foldl_latest_some hd
    have hdl : d ∈ l₁ := hmem.resolve_left (by simp)
    refine (foldl_latest_eq ?_ (hperm.mem_iff.mp hdl) ?_).symm
    · exact fun c hc e he => hinj c (hperm.mem_iff.mpr hc) e (hperm.mem_iff.mpr he)
    · exact fun c hc => hle c (hperm.mem_iff.mpr hc)

end CppBase.Lib
