import Mathlib.Data.List.Sort

/-! Ordered multimaps: entries by increasing key, and those of one key in the
order they were inserted. -/

namespace CppBase.Lib

structure Multimap (κ ν : Type) [LinearOrder κ] where
  toList : List (κ × ν)
  sorted : toList.Pairwise fun x y => x.1 ≤ y.1

namespace Multimap

variable {κ ν : Type} [LinearOrder κ]

instance : Inhabited (Multimap κ ν) := ⟨⟨[], .nil⟩⟩

/-- An entry goes behind those with its key, to the upper bound. -/
def place (a : κ × ν) (l : List (κ × ν)) : List (κ × ν) := l.orderedInsert (fun x y => x.1 < y.1) a

theorem pairwise_place (a : κ × ν) {l : List (κ × ν)} (h : l.Pairwise fun x y => x.1 ≤ y.1) :
    (place a l).Pairwise fun x y => x.1 ≤ y.1 := by
  induction l with
  | nil => simp [place]
  | cons b l ih =>
    obtain ⟨hb, hl⟩ := List.pairwise_cons.mp h
    rw [place, List.orderedInsert_cons]
    split
    · rename_i hlt
      refine List.pairwise_cons.mpr ⟨fun x hx => ?_, h⟩
      rcases List.mem_cons.mp hx with rfl | hx
      · exact hlt.le
      · exact hlt.le.trans (hb x hx)
    · rename_i hge
      refine List.pairwise_cons.mpr ⟨fun x hx => ?_, ih hl⟩
      rcases (List.mem_orderedInsert _).mp hx with rfl | hx
      · exact not_lt.mp hge
      · exact hb x hx

def insert (m : Multimap κ ν) (k : κ) (v : ν) : Multimap κ ν := ⟨place (k, v) m.toList, pairwise_place _ m.sorted⟩

theorem perm_insert (m : Multimap κ ν) (k : κ) (v : ν) : (m.insert k v).toList.Perm ((k, v) :: m.toList) :=
  List.perm_orderedInsert _ _ _

def eraseBegin (m : Multimap κ ν) : Multimap κ ν := ⟨m.toList.tail, m.sorted.tail⟩

theorem forall_lt_of_head {m : Multimap κ ν} {a : κ × ν} {l : List (κ × ν)} (h : m.toList = a :: l) {k : κ}
    (ha : k < a.1) : ∀ x ∈ m.toList, k < x.1 := by
  have hsorted := m.sorted
  rw [h] at hsorted ⊢
  intro x hx
  rcases List.mem_cons.mp hx with rfl | hx
  · exact ha
  · exact ha.trans_le ((List.pairwise_cons.mp hsorted).1 x hx)

section Values

variable [DecidableEq ν]

def entries (m : Multimap κ ν) (v : ν) : List (κ × ν) := m.toList.filter fun e => e.2 = v

theorem entries_insert_self (m : Multimap κ ν) (k : κ) (v : ν) :
    ((m.insert k v).entries v).Perm ((k, v) :: m.entries v) := by
  have h := (m.perm_insert k v).filter fun e => decide (e.2 = v)
  rwa [List.filter_cons_of_pos (by simp)] at h

theorem entries_insert_of_ne (m : Multimap κ ν) (k : κ) {v w : ν} (hne : v ≠ w) :
    ((m.insert k v).entries w).Perm (m.entries w) := by
  have h := (m.perm_insert k v).filter fun e => decide (e.2 = w)
  rwa [List.filter_cons_of_neg (by simpa using hne)] at h

theorem entries_eraseBegin (m : Multimap κ ν) (v : ν) : (m.eraseBegin.entries v).Sublist (m.entries v) :=
  (List.tail_sublist m.toList).filter _

/-- The entry at `begin()` is the only one with its value if there is at most one. -/
theorem entries_eraseBegin_eq_nil {m : Multimap κ ν} {k : κ} {v : ν} {l : List (κ × ν)}
    (h : m.toList = (k, v) :: l)
    (hone : (m.entries v).length ≤ 1) : m.eraseBegin.entries v = [] := by
  simp only [entries, eraseBegin, h, List.tail_cons] at hone ⊢
  rw [List.filter_cons_of_pos (by simp), List.length_cons] at hone
  exact List.length_eq_zero_iff.mp (by omega)

end Values

def countLe (m : Multimap κ ν) (k : κ) : ℕ := m.toList.countP fun e => e.1 ≤ k

theorem countLe_le_length (m : Multimap κ ν) (k : κ) : m.countLe k ≤ m.toList.length := List.countP_le_length

theorem countLe_insert_of_lt (m : Multimap κ ν) {k d : κ} (v : ν) (h : k < d) :
    (m.insert d v).countLe k = m.countLe k := by
  rw [countLe, (m.perm_insert d v).countP_eq, List.countP_cons_of_neg (by simpa using h), countLe]

theorem countLe_eraseBegin {m : Multimap κ ν} {a : κ × ν} {l : List (κ × ν)} (h : m.toList = a :: l) {k : κ}
    (ha : a.1 ≤ k) : m.eraseBegin.countLe k + 1 = m.countLe k := by
  simp only [countLe, eraseBegin, h, List.tail_cons]
  rw [List.countP_cons_of_pos (by simpa using ha)]

end Multimap

end CppBase.Lib
