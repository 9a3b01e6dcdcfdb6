import Mathlib.Data.Finset.Erase
import Mathlib.Data.Finset.Insert
import Mathlib.Data.List.Induction
import Mathlib.Order.Defs.LinearOrder

/-! Loops that keep the best element so far. Which of several equally good ones is kept
depends on whether an equal one replaces it. -/

namespace CppBase.Lib

variable {α β : Type}

section Scan

variable {r : β → β → Prop} [DecidableRel r] {w : α → β} {m : β} {b : α}

/-- One round: `a` replaces the best so far if its weight stands in `r` to it. -/
def keepBest (r : β → β → Prop) [DecidableRel r] (w : α → β) (best : β × α) (a : α) : β × α :=
  if r best.1 (w a) then (w a, a) else best

/-- Nothing was better than the start, or the best is better than all before it, and none
behind it is better. -/
theorem foldl_keepBest (htrans : ∀ {x y z}, r x y → r y z → r x z) (hneg : ∀ {x y z}, r x z → ¬ r x y → r y z)
    (l : List α) :
    (l.foldl (keepBest r w) (m, b) = (m, b) ∧ ∀ x ∈ l, ¬ r m (w x)) ∨
      ∃ pre a post, l = pre ++ a :: post ∧ l.foldl (keepBest r w) (m, b) = (w a, a) ∧ r m (w a) ∧
        (∀ x ∈ pre, r (w x) (w a)) ∧ ∀ x ∈ post, ¬ r (w a) (w x) := by
  induction l using List.reverseRecOn with
  | nil => exact .inl ⟨rfl, nofun⟩
  | append_singleton l y ih =>
    rw [List.foldl_append, List.foldl_cons, List.foldl_nil]
    obtain ⟨heq, hnone⟩ | ⟨pre, a, post, rfl, heq, hm, hpre, hpost⟩ := ih
    · rw [heq, keepBest]
      split_ifs with hy
      · exact .inr ⟨l, y, [], rfl, rfl, hy, fun x hx => hneg hy (hnone x hx), nofun⟩
      · refine .inl ⟨rfl, ?_⟩
        simpa [or_imp, forall_and] using ⟨hnone, hy⟩
    · rw [heq, keepBest]
      split_ifs with hy
      · refine .inr ⟨_, y, [], rfl, rfl, htrans hm hy, fun x hx => ?_, nofun⟩
        obtain hx | hx := List.mem_append.mp hx
        · exact htrans (hpre x hx) hy
        obtain rfl | hx := List.mem_cons.mp hx
        · exact hy
        · exact hneg hy (hpost x hx)
      · refine .inr ⟨pre, a, post ++ [y], by simp, rfl, hm, hpre, ?_⟩
        simpa [or_imp, forall_and] using ⟨hpost, hy⟩

end Scan

section Choice

variable [LinearOrder α] [LinearOrder β] {w : α → β} {s : Finset α} {a b g : α}

/-- The heaviest element of a set, the least one if there are several. -/
structure Chosen (w : α → β) (s : Finset α) (a : α) : Prop where
  mem : a ∈ s
  best : ∀ b ∈ s, w b < w a ∨ w b = w a ∧ a ≤ b

theorem Chosen.unique (ha : Chosen w s a) (hb : Chosen w s b) : a = b := by
  obtain hlt | ⟨heq, hab⟩ := ha.best b hb.mem
  · obtain hgt | ⟨heq, -⟩ := hb.best a ha.mem
    · exact absurd hlt hgt.asymm
    · exact absurd heq hlt.ne'
  · obtain hgt | ⟨-, hba⟩ := hb.best a ha.mem
    · exact absurd heq hgt.ne'
    · exact le_antisymm hab hba

/-- One more element takes over or changes nothing. -/
theorem Chosen.insert [DecidableEq α] (ha : Chosen w s a) (g : α) :
    Chosen w (insert g s) a ∨ Chosen w (insert g s) g := by
  have hmem : ∀ {P : α → Prop}, P g → (∀ b ∈ s, P b) → ∀ b ∈ Insert.insert g s, P b := fun hg hs b hb =>
    (Finset.mem_insert.mp hb).elim (fun h => h ▸ hg) (hs b)
  by_cases hg : w g < w a ∨ w g = w a ∧ a ≤ g
  · exact .inl ⟨Finset.mem_insert_of_mem ha.mem, hmem hg ha.best⟩
  · right
    refine ⟨Finset.mem_insert_self g s, hmem (.inr ⟨rfl, le_rfl⟩) fun b hb => ?_⟩
    -- `g` stands before `a` in the order of the choice, and `a` before all others
    grind [ha.best b hb]

/-- Without an element that was not chosen the choice is the same. -/
theorem Chosen.erase [DecidableEq α] (ha : Chosen w s a) (hg : g ≠ a) : Chosen w (s.erase g) a :=
  ⟨Finset.mem_erase.mpr ⟨hg.symm, ha.mem⟩, fun b hb => ha.best b (Finset.mem_of_mem_erase hb)⟩

/-- A scan in increasing order that only a heavier element replaces makes the choice. -/
theorem chosen_foldl [DecidableRel fun x y : β => x < y] {m : β} {l : List α} (hl : l.Pairwise (· ≤ ·))
    (hmem : ∀ x, x ∈ l ↔ x ∈ s) (hs : s.Nonempty) (hm : ∀ x ∈ s, m < w x) (b : α) :
    Chosen w s (l.foldl (keepBest (· < ·) w) (m, b)).2 := by
  obtain ⟨-, hnone⟩ | ⟨pre, a, post, rfl, hbest, -, hpre, hpost⟩ :=
    foldl_keepBest (r := fun x y : β => x < y) (w := w) (m := m) (b := b) lt_trans
      (fun h h' => lt_of_le_of_lt (not_lt.mp h') h) l
  · obtain ⟨x, hx⟩ := hs
    exact absurd (hm x hx) (hnone x ((hmem x).mpr hx))
  · rw [hbest]
    refine ⟨(hmem a).mp (by simp), fun x hx => ?_⟩
    obtain hx | hx := List.mem_append.mp ((hmem x).mpr hx)
    · exact .inl (hpre x hx)
    obtain rfl | hx := List.mem_cons.mp hx
    · exact .inr ⟨rfl, le_rfl⟩
    · have hle : a ≤ x := (List.pairwise_cons.mp (List.pairwise_append.mp hl).2.1).1 x hx
      exact (not_lt.mp (hpost x hx)).lt_or_eq.imp_right fun h => ⟨h, hle⟩

end Choice

end CppBase.Lib
