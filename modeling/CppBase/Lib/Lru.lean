import Mathlib.Data.List.Nodup
import Mathlib.Data.List.TakeWhile

/-! Lists of entries with distinct keys, the most recently used first. -/

namespace CppBase.Lib.Lru

variable {κ ν : Type}

def keys (l : List (κ × ν)) : List κ := l.map Prod.fst

@[simp] theorem keys_cons (e : κ × ν) (l : List (κ × ν)) : keys (e :: l) = e.1 :: keys l := rfl

@[simp] theorem length_keys (l : List (κ × ν)) : (keys l).length = l.length := List.length_map _

theorem keys_dropLast (l : List (κ × ν)) : keys l.dropLast = (keys l).dropLast := List.map_dropLast

/-- Beyond the capacity the last entry goes. -/
def trim (cap : ℕ) (l : List (κ × ν)) : List (κ × ν) := if cap < l.length then l.dropLast else l

theorem nodup_keys_trim {l : List (κ × ν)} (h : (keys l).Nodup) (cap : ℕ) : (keys (trim cap l)).Nodup := by
  unfold trim
  split
  · rw [keys_dropLast]
    exact h.sublist (List.dropLast_sublist _)
  · exact h

theorem keys_trim_subset (cap : ℕ) (l : List (κ × ν)) : keys (trim cap l) ⊆ keys l := by
  unfold trim
  split
  · rw [keys_dropLast]
    exact List.dropLast_subset _
  · exact List.Subset.refl _

variable [DecidableEq κ] {k x : κ} {l : List (κ × ν)}

def find (k : κ) (l : List (κ × ν)) : Option (κ × ν) := l.find? fun e => e.1 = k

def remove (k : κ) (l : List (κ × ν)) : List (κ × ν) := l.filter fun e => e.1 ≠ k

/-- Use the key, if it is there. -/
def toFront (k : κ) (l : List (κ × ν)) : List (κ × ν) :=
  match find k l with
  | some e => e :: remove k l
  | none => l

def store (cap : ℕ) (k : κ) (v : ν) (l : List (κ × ν)) : List (κ × ν) := trim cap ((k, v) :: remove k l)

theorem keys_remove (k : κ) (l : List (κ × ν)) : keys (remove k l) = (keys l).filter (· ≠ k) := by
  rw [keys, remove, keys, List.filter_map]
  rfl

theorem remove_eq_self (h : k ∉ keys l) : remove k l = l := by
  refine List.filter_eq_self.mpr fun e he => ?_
  simpa using fun hk => h (List.mem_map.mpr ⟨e, he, hk⟩)

theorem find_eq_none : find k l = none ↔ k ∉ keys l := by
  rw [find, List.find?_eq_none, keys, List.mem_map]
  simp only [decide_eq_true_eq, not_exists, not_and]

theorem key_of_find {e : κ × ν} (h : find k l = some e) : e.1 = k := by
  simpa using List.find?_some h

theorem mem_keys_of_find {e : κ × ν} (h : find k l = some e) : k ∈ keys l :=
  List.mem_map.mpr ⟨e, List.mem_of_find?_eq_some h, key_of_find h⟩

theorem mem_keys_toFront : x ∈ keys (toFront k l) ↔ x ∈ keys l := by
  unfold toFront
  cases h : find k l with
  | none => rfl
  | some e =>
    rw [keys_cons, key_of_find h, keys_remove, List.mem_cons, List.mem_filter, decide_eq_true_eq]
    constructor
    · rintro (rfl | ⟨hx, -⟩)
      · exact mem_keys_of_find h
      · exact hx
    · intro hx
      by_cases hk : x = k
      · exact Or.inl hk
      · exact Or.inr ⟨hx, hk⟩

theorem nodup_keys_remove (h : (keys l).Nodup) (k : κ) : (keys (remove k l)).Nodup := by
  rw [keys_remove]
  exact h.filter _

theorem nodup_keys_cons_remove (h : (keys l).Nodup) (e : κ × ν) : (keys (e :: remove e.1 l)).Nodup := by
  refine List.nodup_cons.mpr ⟨?_, nodup_keys_remove h _⟩
  rw [← keys, keys_remove]
  simp

theorem nodup_keys_toFront (h : (keys l).Nodup) (k : κ) : (keys (toFront k l)).Nodup := by
  unfold toFront
  cases hf : find k l with
  | none => exact h
  | some e =>
    rw [← key_of_find hf]
    exact nodup_keys_cons_remove h e

section Length

theorem length_remove_le (k : κ) (l : List (κ × ν)) : (remove k l).length ≤ l.length := List.length_filter_le _ _

theorem length_store_le {cap : ℕ} (h : l.length ≤ cap) (k : κ) (v : ν) : (store cap k v l).length ≤ cap := by
  have := length_remove_le k l
  unfold store trim
  split
  · rw [List.length_dropLast, List.length_cons]
    omega
  · omega

end Length

section Ahead

def ahead (x : κ) (l : List (κ × ν)) : List κ := (keys l).takeWhile (· ≠ x)

@[simp] theorem ahead_cons_self (v : ν) (l : List (κ × ν)) : ahead x ((x, v) :: l) = [] := by simp [ahead]

theorem ahead_cons_of_ne {e : κ × ν} (h : e.1 ≠ x) (l : List (κ × ν)) : ahead x (e :: l) = e.1 :: ahead x l := by
  simp [ahead, h]

theorem ahead_remove_subset (h : k ≠ x) (l : List (κ × ν)) : ahead x (remove k l) ⊆ ahead x l := by
  induction l with
  | nil => exact List.Subset.refl _
  | cons e l ih =>
    by_cases hk : e.1 = k
    · rw [remove, List.filter_cons_of_neg (by simpa using hk), ← remove, ahead_cons_of_ne (hk ▸ h)]
      exact List.subset_cons_of_subset _ ih
    · rw [remove, List.filter_cons_of_pos (by simpa using hk), ← remove]
      by_cases hx : e.1 = x
      · simp [ahead, hx]
      · rw [ahead_cons_of_ne hx, ahead_cons_of_ne hx]
        exact List.cons_subset_cons _ ih

theorem ahead_dropLast_subset (x : κ) (l : List (κ × ν)) : ahead x l.dropLast ⊆ ahead x l := by
  induction l with
  | nil => exact List.Subset.refl _
  | cons e l ih =>
    cases l with
    | nil => exact List.nil_subset _
    | cons f l =>
      rw [List.dropLast_cons_cons]
      by_cases hx : e.1 = x
      · simp [ahead, hx]
      · rw [ahead_cons_of_ne hx, ahead_cons_of_ne hx]
        exact List.cons_subset_cons _ ih

theorem ahead_trim_subset (x : κ) (cap : ℕ) (l : List (κ × ν)) : ahead x (trim cap l) ⊆ ahead x l := by
  unfold trim
  split
  · exact ahead_dropLast_subset x l
  · exact List.Subset.refl _

/-- The entry that `trim` drops has all the others ahead of it. -/
theorem ahead_of_trimmed (hmem : x ∈ keys l) {cap : ℕ} (hout : x ∉ keys (trim cap l)) :
    cap ≤ (ahead x l).length := by
  unfold trim at hout
  split at hout
  · rename_i hlen
    rw [keys_dropLast] at hout
    have hall : ∀ y ∈ (keys l).dropLast, decide (y ≠ x) = true := by
      intro y hy
      have hne : y ≠ x := by
        rintro rfl
        exact hout hy
      simpa using hne
    have hle : (keys l).dropLast.length ≤ (ahead x l).length := by
      rw [ahead, ← List.dropLast_append_getLast (List.ne_nil_of_mem hmem), List.takeWhile_append_of_pos hall]
      simp
    rw [List.length_dropLast, length_keys] at hle
    omega
  · exact absurd hmem hout

theorem notMem_ahead (x : κ) (l : List (κ × ν)) : x ∉ ahead x l := by
  intro h
  simpa using List.mem_takeWhile_imp h

theorem nodup_ahead (h : (keys l).Nodup) (x : κ) : (ahead x l).Nodup := h.sublist (List.takeWhile_sublist _)

end Ahead

end CppBase.Lib.Lru
