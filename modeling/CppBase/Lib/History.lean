import Mathlib.Data.List.Basic
import Mathlib.Data.List.Induction

/-! Lists that record what happened, judged entry by entry in view of those before. -/

namespace CppBase.Lib

variable {α : Type} {l pre post : List α} {x y a : α} {n : ℕ}

/-- Where a list with `y` at its end can be split: at `y`, or before it. -/
theorem concat_split (h : l ++ [y] = pre ++ x :: post) :
    (l = pre ∧ y = x ∧ post = []) ∨ ∃ post', post = post' ++ [y] ∧ l = pre ++ x :: post' := by
  obtain rfl | ⟨post, z, rfl⟩ := List.eq_nil_or_concat' post
  · obtain ⟨rfl, hyx⟩ := List.append_inj' h rfl
    exact .inl ⟨rfl, by simpa using hyx, rfl⟩
  · rw [← List.cons_append, ← List.append_assoc] at h
    obtain ⟨rfl, hyz⟩ := List.append_inj' h rfl
    exact .inr ⟨post, by rw [hyz], rfl⟩

section Each

variable {P : List α → α → Prop}

/-- `P` relates what came before to every entry. -/
def EachAfter (P : List α → α → Prop) (l : List α) : Prop := ∀ pre x post, l = pre ++ x :: post → P pre x

theorem eachAfter_nil : EachAfter P [] := by
  intro pre x post h
  simp at h

theorem EachAfter.concat (h : EachAfter P l) (hx : P l x) : EachAfter P (l ++ [x]) := by
  intro pre y post heq
  obtain ⟨rfl, rfl, -⟩ | ⟨post, -, rfl⟩ := concat_split heq
  · exact hx
  · exact h pre y post rfl

end Each

section Last

variable {p : α → Prop}

/-- The last entry with `p` is `a`, and the next entry would be `n` after it. -/
def LastAgo (p : α → Prop) (l : List α) (a : α) (n : ℕ) : Prop :=
  ∃ pre mid, l = pre ++ a :: mid ∧ p a ∧ (∀ x ∈ mid, ¬ p x) ∧ n = mid.length + 1

theorem LastAgo.mem (h : LastAgo p l a n) : ∃ x ∈ l, p x := by
  obtain ⟨pre, mid, rfl, ha, -⟩ := h
  exact ⟨a, by simp, ha⟩

theorem LastAgo.concat_pos (h : LastAgo p (l ++ [x]) a n) (hx : p x) : a = x ∧ n = 1 := by
  obtain ⟨pre, mid, heq, -, hmid, rfl⟩ := h
  obtain ⟨-, rfl, rfl⟩ | ⟨mid, rfl, -⟩ := concat_split heq
  · exact ⟨rfl, rfl⟩
  · exact absurd hx (hmid x (by simp))

theorem LastAgo.concat_neg (h : LastAgo p (l ++ [x]) a n) (hx : ¬ p x) : ∃ m, LastAgo p l a m ∧ n = m + 1 := by
  obtain ⟨pre, mid, heq, ha, hmid, rfl⟩ := h
  obtain ⟨rfl, rfl, -⟩ | ⟨mid, rfl, rfl⟩ := concat_split heq
  · exact absurd ha hx
  · refine ⟨mid.length + 1, ⟨pre, mid, rfl, ha, fun y hy => hmid y (by simp [hy]), rfl⟩, ?_⟩
    rw [List.length_append, List.length_singleton]

theorem exists_lastAgo (h : ∃ x ∈ l, p x) : ∃ a n, LastAgo p l a n := by
  induction l using List.reverseRecOn with
  | nil => simp at h
  | append_singleton l y ih =>
    by_cases hy : p y
    · exact ⟨y, 1, l, [], rfl, hy, nofun, rfl⟩
    · obtain ⟨x, hx, hpx⟩ := h
      obtain hx | rfl : x ∈ l ∨ x = y := by simpa using hx
      · obtain ⟨a, n, pre, mid, rfl, ha, hmid, rfl⟩ := ih ⟨x, hx, hpx⟩
        refine ⟨a, mid.length + 2, pre, mid ++ [y], by simp, ha, fun z hz => ?_, by simp⟩
        obtain hz | rfl : z ∈ mid ∨ z = y := by simpa using hz
        · exact hmid z hz
        · exact hy
      · exact absurd hpx hy

end Last

end CppBase.Lib
