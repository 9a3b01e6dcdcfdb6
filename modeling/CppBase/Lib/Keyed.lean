import Mathlib.Data.List.Lex
import Mathlib.Data.List.Pairwise
import Mathlib.Data.List.Sort
import Mathlib.Algebra.Ring.Nat
import Mathlib.Order.Lattice

/-! Ordered containers with unique keys, as the list that iteration shows. With
the identity as key this is a set, with the first component a map. -/

namespace CppBase.Lib

variable {α κ : Type} [LinearOrder κ]

/-- Insert in order; an element whose key is already there is dropped. -/
def insertUnique (key : α → κ) (a : α) : List α → List α
  | [] => [a]
  | b :: l => if key a < key b then a :: b :: l else if key b < key a then b :: insertUnique key a l else b :: l

theorem mem_insertUnique {key : α → κ} {a x : α} {l : List α} (h : x ∈ insertUnique key a l) : x = a ∨ x ∈ l := by
  induction l with
  | nil => simpa [insertUnique] using h
  | cons b l ih =>
    rw [insertUnique] at h
    split_ifs at h
    · simpa using h
    · rcases List.mem_cons.mp h with rfl | h
      · simp
      · rcases ih h with rfl | h
        · simp
        · simp [h]
    · exact Or.inr h

theorem pairwise_insertUnique {key : α → κ} (a : α) {l : List α} (h : l.Pairwise fun x y => key x < key y) :
    (insertUnique key a l).Pairwise fun x y => key x < key y := by
  induction l with
  | nil => simp [insertUnique]
  | cons b l ih =>
    obtain ⟨hb, hl⟩ := List.pairwise_cons.mp h
    rw [insertUnique]
    split_ifs with h1 h2
    · refine List.pairwise_cons.mpr ⟨?_, h⟩
      intro x hx
      rcases List.mem_cons.mp hx with rfl | hx
      · exact h1
      · exact h1.trans (hb x hx)
    · refine List.pairwise_cons.mpr ⟨?_, ih hl⟩
      intro x hx
      rcases mem_insertUnique hx with rfl | hx
      · exact h2
      · exact hb x hx
    · exact h

theorem insertUnique_last {key : α → κ} {a : α} {l : List α} (h : ∀ x ∈ l, key x < key a) :
    insertUnique key a l = l ++ [a] := by
  induction l with
  | nil => rfl
  | cons b l ih =>
    have hb : key b < key a := h b (by simp)
    rw [insertUnique, if_neg hb.asymm, if_pos hb, ih fun x hx => h x (by simp [hx]), List.cons_append]

/-- An insertion adds at most the weight of the element. -/
theorem sum_insertUnique_le (key : α → κ) (w : α → ℕ) (a : α) (l : List α) :
    ((insertUnique key a l).map w).sum ≤ w a + (l.map w).sum := by
  induction l with
  | nil => simp [insertUnique]
  | cons b l ih =>
    rw [insertUnique]
    split_ifs
    · simp
    · simp only [List.map_cons, List.sum_cons]
      omega
    · simp

/-- The elements of an ordered container, by increasing key. -/
structure Keyed (key : α → κ) where
  toList : List α
  sorted : toList.Pairwise fun x y => key x < key y
  deriving DecidableEq

namespace Keyed

variable {key : α → κ}

instance : Inhabited (Keyed key) := ⟨⟨[], .nil⟩⟩

def insert (a : α) (s : Keyed key) : Keyed key := ⟨insertUnique key a s.toList, pairwise_insertUnique a s.sorted⟩

@[simp] theorem toList_insert (a : α) (s : Keyed key) : (s.insert a).toList = insertUnique key a s.toList := rfl

def map (f : α → α) (hf : ∀ a, key (f a) = key a) (s : Keyed key) : Keyed key :=
  ⟨s.toList.map f, by simpa only [List.pairwise_map, hf] using s.sorted⟩

@[simp] theorem toList_map (f : α → α) (hf : ∀ a, key (f a) = key a) (s : Keyed key) :
    (s.map f hf).toList = s.toList.map f := rfl

theorem toList_injective : Function.Injective (toList : Keyed key → List α) := by
  rintro ⟨l, -⟩ ⟨m, -⟩ rfl
  rfl

/-- Containers compare like the sequences of their elements. -/
instance [LinearOrder α] : LinearOrder (Keyed key) := LinearOrder.lift' toList toList_injective

/-- Inserting the rest of a container in order completes it. -/
theorem foldl_insert {s t : Keyed key} {l : List α} (h : t.toList = s.toList ++ l) :
    l.foldl (fun s a => s.insert a) s = t := by
  induction l generalizing s with
  | nil => exact toList_injective (by simpa using h.symm)
  | cons a l ih =>
    have hlt : ∀ x ∈ s.toList, key x < key a := by
      have hp := t.sorted
      rw [h, List.pairwise_append] at hp
      exact fun x hx => hp.2.2 x hx a (by simp)
    refine ih ?_
    rw [toList_insert, insertUnique_last hlt, List.append_assoc, List.singleton_append, h]

section Find

variable {a : α} {k : κ} {l : List α} {s t : Keyed key}

def find (s : Keyed key) (k : κ) : Option α := s.toList.find? (key · = k)

theorem key_inj {b : α} (ha : a ∈ s.toList) (hb : b ∈ s.toList) (h : key a = key b) : a = b := by
  have hnodup : (s.toList.map key).Nodup := List.pairwise_map.mpr (s.sorted.imp ne_of_lt)
  exact List.inj_on_of_nodup_map hnodup ha hb h

theorem mem_iff_find : a ∈ s.toList ↔ s.find (key a) = some a := by
  refine ⟨fun ha => ?_, List.mem_of_find?_eq_some⟩
  cases hfind : s.find (key a) with
  | none => exact absurd (List.find?_eq_none.mp hfind a ha) (by simp)
  | some b =>
    have hkey : key b = key a := by simpa using List.find?_some hfind
    rw [key_inj (List.mem_of_find?_eq_some hfind) ha hkey]

theorem ext_find (h : ∀ k, s.find k = t.find k) : s = t := by
  apply toList_injective
  have : Std.Irrefl fun x y : α => key x < key y := ⟨fun x => lt_irrefl (key x)⟩
  have : Std.Antisymm fun x y : α => key x < key y := ⟨fun x y hxy hyx => absurd hxy hyx.asymm⟩
  refine s.sorted.eq_of_mem_iff t.sorted fun a => ?_
  rw [mem_iff_find, mem_iff_find, h]

theorem find_insert : (s.insert a).find k = (s.find k).or (if key a = k then some a else none) := by
  obtain ⟨l, hl⟩ := s
  change (insertUnique key a l).find? _ = (l.find? _).or _
  induction l with
  | nil =>
    rw [insertUnique, List.find?_cons]
    by_cases hk : key a = k <;> simp [hk]
  | cons b l ih =>
    obtain ⟨hb, hl⟩ := List.pairwise_cons.mp hl
    rw [insertUnique]
    by_cases hlt : key a < key b
    · rw [if_pos hlt]
      by_cases hk : key a = k
      · -- all keys of the list are above that of the element
        have hnone : (b :: l).find? (key · = k) = none := by
          refine List.find?_eq_none.mpr fun x hx => ?_
          rcases List.mem_cons.mp hx with rfl | hx
          · simpa using (hk ▸ hlt).ne'
          · simpa using (hk ▸ hlt.trans (hb x hx)).ne'
        rw [hnone, List.find?_cons_of_pos (by simpa using hk), if_pos hk, Option.none_or]
      · rw [List.find?_cons_of_neg (by simpa using hk), if_neg hk, Option.or_none]
    · rw [if_neg hlt]
      by_cases hgt : key b < key a
      · rw [if_pos hgt, List.find?_cons, List.find?_cons, ih hl]
        by_cases hk : key b = k
        · simp [hk]
        · simp [hk]
      · rw [if_neg hgt]
        by_cases hk : key a = k
        · have heq : key b = k := (le_antisymm (not_lt.mp hlt) (not_lt.mp hgt)).trans hk
          rw [List.find?_cons_of_pos (by simpa using heq), Option.some_or]
        · rw [if_neg hk, Option.or_none]

/-- What is there stays; of what comes, the first of each key is taken. -/
theorem find_foldl_insert : (l.foldl (fun s a => s.insert a) s).find k = (s.find k).or (l.find? (key · = k)) := by
  induction l generalizing s with
  | nil => simp
  | cons a l ih =>
    rw [List.foldl_cons, ih, find_insert, Option.or_assoc]
    by_cases hk : key a = k
    · rw [if_pos hk, List.find?_cons_of_pos (by simpa using hk)]
      rfl
    · rw [if_neg hk, List.find?_cons_of_neg (by simpa using hk)]
      rfl

/-- For each key the two have the same, or one has none and the other the first of `l`. -/
def SameBut (l : List α) (s t : Keyed key) : Prop :=
  ∀ k, s.find k = t.find k ∨ s.find k = none ∧ t.find k = l.find? (key · = k) ∨
    t.find k = none ∧ s.find k = l.find? (key · = k)

theorem foldl_insert_inj :
    l.foldl (fun s a => s.insert a) s = l.foldl (fun s a => s.insert a) t ↔ SameBut l s t := by
  have hfind : l.foldl (fun s a => s.insert a) s = l.foldl (fun s a => s.insert a) t ↔
      ∀ k, (s.find k).or (l.find? (key · = k)) = (t.find k).or (l.find? (key · = k)) := by
    refine ⟨fun h k => ?_, fun h => ext_find fun k => ?_⟩
    · rw [← find_foldl_insert, ← find_foldl_insert, h]
    · rw [find_foldl_insert, find_foldl_insert, h k]
  rw [hfind, SameBut]
  refine forall_congr' fun k => ?_
  cases s.find k with
  | none =>
    cases t.find k with
    | none => simp
    | some b => simp [eq_comm]
  | some a =>
    cases t.find k with
    | none => simp
    | some b => simp

end Find

end Keyed

end CppBase.Lib
