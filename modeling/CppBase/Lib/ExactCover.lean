import Mathlib.Data.Set.Insert

/-! Exact covers: rows such that each column is hit by one of them and by no other. -/

namespace CppBase.Lib

variable {κ ρ : Type}

/-- `S` takes its rows from `A` and covers the columns `C`. -/
structure ExactCover (hits : ρ → κ → Prop) (C : Set κ) (A : Set ρ) (S : Set ρ) : Prop where
  rows : S ⊆ A
  once : ∀ d ∈ C, ∃! r, r ∈ S ∧ hits r d

/-- The columns that are left when `r` has been taken. -/
def colsWithout (hits : ρ → κ → Prop) (C : Set κ) (r : ρ) : Set κ := {d ∈ C | ¬ hits r d}

/-- The rows that can still be taken with `r`. -/
def rowsBeside (hits : ρ → κ → Prop) (A : Set ρ) (r : ρ) : Set ρ := {r' ∈ A | ∀ d, hits r d → ¬ hits r' d}

variable {hits : ρ → κ → Prop} {C : Set κ} {A S : Set ρ} {c : κ} {r : ρ}

theorem exactCover_empty (hC : C = ∅) : ExactCover hits C A ∅ :=
  ⟨Set.empty_subset A, fun d hd => by simp [hC] at hd⟩

theorem ExactCover.insert (h : ExactCover hits (colsWithout hits C r) (rowsBeside hits A r) S) (hr : r ∈ A) :
    ExactCover hits C A (insert r S) := by
  refine ⟨Set.insert_subset hr fun r' hr' => (h.rows hr').1, fun d hd => ?_⟩
  by_cases hhit : hits r d
  · refine ⟨r, ⟨Set.mem_insert r S, hhit⟩, ?_⟩
    rintro r' ⟨hr' | hr', hhit'⟩
    · exact hr'
    · exact absurd hhit' ((h.rows hr').2 d hhit)
  · obtain ⟨r₁, ⟨hr₁, hhit₁⟩, honly⟩ := h.once d ⟨hd, hhit⟩
    refine ⟨r₁, ⟨Set.mem_insert_of_mem r hr₁, hhit₁⟩, ?_⟩
    rintro r' ⟨rfl | hr', hhit'⟩
    · exact absurd hhit' hhit
    · exact honly r' ⟨hr', hhit'⟩

/-- Some row of a cover hits `c`, and the others cover the rest. -/
theorem ExactCover.exists_row (h : ExactCover hits C A S) (hclosed : ∀ r ∈ A, ∀ d, hits r d → d ∈ C) (hc : c ∈ C) :
    ∃ r ∈ A, hits r c ∧ ExactCover hits (colsWithout hits C r) (rowsBeside hits A r) (S \ {r}) := by
  obtain ⟨r, ⟨hr, hhit⟩, -⟩ := h.once c hc
  refine ⟨r, h.rows hr, hhit, ?_, ?_⟩
  · rintro r' ⟨hr', hne⟩
    refine ⟨h.rows hr', fun d hd hd' => hne ?_⟩
    obtain ⟨r₁, -, honly⟩ := h.once d (hclosed r (h.rows hr) d hd)
    exact (honly r' ⟨hr', hd'⟩).trans (honly r ⟨hr, hd⟩).symm
  · rintro d ⟨hd, hmiss⟩
    obtain ⟨r₁, ⟨hr₁, hhit₁⟩, honly⟩ := h.once d hd
    refine ⟨r₁, ⟨⟨hr₁, ?_⟩, hhit₁⟩, fun r' hr' => honly r' ⟨hr'.1.1, hr'.2⟩⟩
    rintro rfl
    exact hmiss hhit₁

end CppBase.Lib
