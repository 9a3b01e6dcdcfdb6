import CppBase.Spec.SingleList

/-! The loops of the linked list, along a segment of its nodes. -/

namespace CppBase.DataStructures.SingleList

open CppBase.Lib

variable {α : Type} {list list' : LinkedList α} {l m : List (ℕ × α)} {p q pre : Option ℕ} {a fuel : ℕ} {v : α}

section Nodes

theorem next_eq (h : list.nodes a = some ⟨q, v⟩) : list.next (some a) = .ok q := by
  rw [LinkedList.next, h]

theorem setNext_eq (h : list.nodes a = some ⟨q, v⟩) (p : Option ℕ) :
    list.setNext (some a) p = .ok { list with nodes := Function.update list.nodes a (some ⟨p, v⟩) } := by
  rw [LinkedList.setNext, h]

/-- `i` steps from the first node on, and `NULL` is followed if that is too far. -/
theorem walk_eq (h : Seg list.nodes p l none) (i : ℕ) :
    list.walk i p = if i ≤ l.length then .ok (l[i]?.map Prod.fst) else .error .null := by
  induction l generalizing p i with
  | nil =>
    obtain rfl : p = none := h
    cases i <;> rfl
  | cons x l ih =>
    obtain ⟨rfl, n, hn, hrest⟩ := h
    cases i with
    | zero => rfl
    | succ i =>
      rw [LinkedList.walk, next_eq hn, ok_bind, ih hrest]
      simp

end Nodes

section Loops

/-- The pointer to the last node, or `pre` if there is none. -/
def lastOr (pre : Option ℕ) (l : List (ℕ × α)) : Option ℕ := l.getLast?.elim pre fun x => some x.1

theorem lastOr_cons (x : ℕ × α) : lastOr pre (x :: l) = lastOr (some x.1) l := by
  rw [lastOr, lastOr, List.getLast?_cons]
  cases l.getLast? <;> rfl

theorem follow_eq {stops : Option ℕ → Bool} (h : Seg list.nodes p l q) (hq : stops q = true)
    (hl : ∀ x ∈ l, stops (some x.1) = false) (hfuel : l.length < fuel) :
    list.follow stops fuel pre p = .ok (lastOr pre l) := by
  induction l generalizing p pre fuel with
  | nil =>
    obtain rfl : p = q := h
    obtain ⟨fuel, rfl⟩ := Nat.exists_eq_succ_of_ne_zero (Nat.ne_zero_of_lt hfuel)
    rw [LinkedList.follow, if_pos hq]
    rfl
  | cons x l ih =>
    obtain ⟨rfl, n, hn, hrest⟩ := h
    obtain ⟨hx, hl⟩ := List.forall_mem_cons.mp hl
    obtain ⟨fuel, rfl⟩ := Nat.exists_eq_succ_of_ne_zero (Nat.ne_zero_of_lt hfuel)
    rw [LinkedList.follow, if_neg (by simp [hx]), next_eq hn, ok_bind, lastOr_cons]
    exact ih hrest hl (Nat.lt_of_succ_lt_succ hfuel)

/-- The loop stops at the node that points to `old`. -/
theorem before_eq {old : ℕ} (h : Seg list.nodes p (l ++ [(a, v)]) (some old))
    (hold : old ∉ (l ++ [(a, v)]).map Prod.fst) (hfuel : l.length < fuel) :
    list.before old fuel p = .ok (some a) := by
  induction l generalizing p fuel with
  | nil =>
    obtain ⟨fuel, rfl⟩ := Nat.exists_eq_succ_of_ne_zero (Nat.ne_zero_of_lt hfuel)
    obtain ⟨rfl, n, hn, rfl⟩ := h
    rw [LinkedList.before, next_eq hn, ok_bind, if_neg (by simp)]
  | cons x l ih =>
    obtain ⟨fuel, rfl⟩ := Nat.exists_eq_succ_of_ne_zero (Nat.ne_zero_of_lt hfuel)
    obtain ⟨rfl, n, hn, hrest⟩ := h
    have hold' : old ∉ (l ++ [(a, v)]).map Prod.fst := fun h => hold (List.mem_cons_of_mem _ h)
    have hne : n ≠ some old := by
      rintro rfl
      exact hold' (hrest.mem_of_some (by simp))
    rw [LinkedList.before, next_eq hn, ok_bind, if_pos hne]
    exact ih hrest hold' (Nat.lt_of_succ_lt_succ hfuel)

/-- Where no node points to `old`, it follows `NULL`. -/
theorem before_null {old : ℕ} (h : Seg list.nodes p l none) (hold : old ∉ l.tail.map Prod.fst)
    (hfuel : l.length < fuel) : list.before old fuel p = .error .null := by
  induction l generalizing p fuel with
  | nil =>
    obtain ⟨fuel, rfl⟩ := Nat.exists_eq_succ_of_ne_zero (Nat.ne_zero_of_lt hfuel)
    obtain rfl : p = none := h
    rfl
  | cons x l ih =>
    obtain ⟨fuel, rfl⟩ := Nat.exists_eq_succ_of_ne_zero (Nat.ne_zero_of_lt hfuel)
    obtain ⟨rfl, n, hn, hrest⟩ := h
    have hne : n ≠ some old := by
      rintro rfl
      refine hold (hrest.mem_of_some ?_)
      rintro rfl
      cases hrest
    rw [LinkedList.before, next_eq hn, ok_bind, if_pos hne]
    refine ih hrest (fun h => hold ?_) (Nat.lt_of_succ_lt_succ hfuel)
    exact List.map_subset _ (fun _ => List.mem_of_mem_tail) h

/-- `listEmpty` takes all nodes out and keeps the length. -/
theorem emptyLoop_ok (h : emptyLoop fuel list = .ok list') : list'.head = none ∧ list'.len = list.len := by
  induction fuel generalizing list with
  | zero =>
    rw [emptyLoop] at h
    split_ifs at h with hhead
    obtain rfl := Except.ok.inj h
    exact ⟨hhead, rfl⟩
  | succ fuel ih =>
    rw [emptyLoop] at h
    split at h
    next hhead =>
      obtain rfl := Except.ok.inj h
      exact ⟨hhead, rfl⟩
    next node _ =>
      obtain ⟨n, -, h⟩ := exists_of_bind_ok h
      have hrest := ih h
      exact hrest

/-- The nodes `l` still to come are turned round, before those `m` that were. -/
theorem rewindLoop_eq (hl : Seg list.nodes p l none) (hm : Seg list.nodes pre m none)
    (hdisj : (l.map Prod.fst).Disjoint (m.map Prod.fst)) (hfuel : l.length ≤ fuel) :
    ∃ nodes head, rewindLoop fuel list p pre = .ok { list with nodes, head } ∧
      Seg nodes head (l.reverse ++ m) none := by
  induction l generalizing list p pre m fuel with
  | nil =>
    obtain rfl : p = none := hl
    refine ⟨list.nodes, pre, ?_, hm⟩
    cases fuel <;> rfl
  | cons x l ih =>
    obtain ⟨a, v⟩ := x
    have hnodup := hl.nodup
    obtain ⟨rfl, n, hn, hrest⟩ := hl
    obtain ⟨fuel, rfl⟩ := Nat.exists_eq_add_of_le' (Nat.le_trans (Nat.le_add_left 1 _) hfuel)
    rw [List.map_cons] at hnodup hdisj
    obtain ⟨hal, -⟩ := List.nodup_cons.mp hnodup
    obtain ⟨ham, hdisj⟩ := List.disjoint_cons_left.mp hdisj
    -- the node is moved over to those that are done
    let moved : LinkedList α := { list with nodes := Function.update list.nodes a (some ⟨pre, v⟩) }
    have hl' : Seg moved.nodes n l none := hrest.update hal _
    have hm' : Seg moved.nodes (some a) ((a, v) :: m) none := ⟨rfl, pre, Function.update_self .., hm.update ham _⟩
    have hdisj' : (l.map Prod.fst).Disjoint (((a, v) :: m).map Prod.fst) :=
      List.disjoint_cons_right.mpr ⟨hal, hdisj⟩
    obtain ⟨nodes, head, hloop, hseg⟩ := ih hl' hm' hdisj' (Nat.le_of_succ_le_succ hfuel)
    refine ⟨nodes, head, ?_, by simpa using hseg⟩
    rw [rewindLoop, next_eq hn, ok_bind, setNext_eq hn, ok_bind, hloop]

end Loops

end CppBase.DataStructures.SingleList
