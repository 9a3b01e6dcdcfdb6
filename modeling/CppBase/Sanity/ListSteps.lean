import CppBase.Sanity.ListLoops
import Mathlib.Data.List.Perm.Subperm

/-! What the functions of the linked list do to its nodes. -/

namespace CppBase.DataStructures.SingleList

open CppBase.Lib

variable {α : Type} {list list' : LinkedList α} {ns l m : List (ℕ × α)} {i a b : ℕ} {v v' w : α}

section Good

/-- The nodes of the list are `ns`, from the head on. -/
structure Good (list : LinkedList α) (ns : List (ℕ × α)) : Prop where
  seg : Seg list.nodes list.head ns none
  len : list.len = ns.length
  fresh : ∀ x ∈ ns, x.1 < list.fresh
  free : list.free = false

theorem Good.start : Good (listCreate : LinkedList α) [] := ⟨rfl, rfl, nofun, rfl⟩

theorem Good.not_mem (h : Good list ns) : list.fresh ∉ ns.map Prod.fst := by
  intro hmem
  obtain ⟨x, hx, heq⟩ := List.mem_map.mp hmem
  exact absurd (h.fresh x hx) (heq ▸ Nat.lt_irrefl _)

theorem Good.short (h : Good list ns) : ns.length < list.rounds := by
  have hsub : ns.map Prod.fst ⊆ List.range list.fresh := fun a ha => by
    obtain ⟨x, hx, rfl⟩ := List.mem_map.mp ha
    exact List.mem_range.mpr (h.fresh x hx)
  have hle := (List.subperm_of_subset h.seg.nodup hsub).length_le
  rw [List.length_map, List.length_range] at hle
  rw [LinkedList.rounds]
  omega

theorem Good.nodeAt_eq (h : Good list ns) (i : ℕ) : list.nodeAt i = ns[i]?.map Prod.fst := by
  rw [LinkedList.nodeAt, walk_eq h.seg]
  split_ifs with hi
  · rfl
  · rw [List.getElem?_eq_none (by omega)]
    rfl

end Good

section Steps

theorem Good.addHead (h : Good list ns) (v : α) : Good (listAddNodeHead list v) ((list.fresh, v) :: ns) where
  seg := ⟨rfl, list.head, Function.update_self .., h.seg.update h.not_mem _⟩
  len := congrArg (· + 1) h.len
  fresh := List.forall_mem_cons.mpr ⟨Nat.lt_succ_self _, fun x hx => Nat.lt_succ_of_lt (h.fresh x hx)⟩
  free := h.free

theorem Good.splice (h : Good list (l ++ (a, w) :: m)) (v : α) :
    ∃ n nodes, list.next (some a) = .ok n ∧ Seg list.nodes n m none ∧
      (list.malloc n v).setNext (some a) (some list.fresh) =
        .ok { list with nodes, fresh := list.fresh + 1 } ∧
      Good { list with nodes, fresh := list.fresh + 1, len := list.len + 1 }
        (l ++ (a, w) :: (list.fresh, v) :: m) := by
  obtain ⟨n, hn, -, hm⟩ := h.seg.split
  have hne : a ≠ list.fresh := fun heq => h.not_mem (heq ▸ by simp)
  have hn' : (list.malloc n v).nodes a = some ⟨n, w⟩ := (Function.update_of_ne hne ..).trans hn
  refine ⟨n, _, next_eq hn, hm, setNext_eq hn' _, h.seg.insert_after hn h.not_mem, ?_, ?_, h.free⟩
  · simp only [h.len, List.length_append, List.length_cons]
    omega
  · intro x hx
    have hx' : x ∈ l ++ (a, w) :: m ∨ x = (list.fresh, v) := by
      simp only [List.mem_append, List.mem_cons] at hx ⊢
      tauto
    obtain hx' | rfl := hx'
    · exact Nat.lt_succ_of_lt (h.fresh x hx')
    · exact Nat.lt_succ_self _

theorem Good.addTail (h : Good list ns) (v : α) :
    ∃ list', listAddNodeTail list v = .ok list' ∧ Good list' (ns ++ [(list.fresh, v)]) := by
  obtain rfl | ⟨l, ⟨a, w⟩, rfl⟩ := List.eq_nil_or_concat' ns
  · have hhead : list.head = none := h.seg
    have hlen : list.len = 0 := h.len
    have heq : listAddNodeTail list v =
        .ok { list.malloc none v with head := some list.fresh, len := list.len + 1 } := by
      rw [listAddNodeTail]
      exact if_pos ⟨hhead, hlen⟩
    refine ⟨_, heq, ⟨rfl, none, Function.update_self .., rfl⟩, congrArg (· + 1) hlen, ?_, h.free⟩
    exact List.forall_mem_singleton.mpr (Nat.lt_succ_self _)
  · obtain ⟨n, nodes, -, hn, hset, hgood⟩ := h.splice v
    obtain rfl : n = none := hn
    have hlen : list.len ≠ 0 := by
      simp [h.len]
    have hfollow : (list.malloc none v).follow (· = none) (list.malloc none v).rounds (list.malloc none v).head
        (list.malloc none v).head = .ok (some a) := by
      have hseg : Seg (list.malloc none v).nodes (list.malloc none v).head (l ++ [(a, w)]) none :=
        h.seg.update h.not_mem _
      have hshort : (l ++ [(a, w)]).length < (list.malloc none v).rounds :=
        Nat.lt_trans h.short (by simp [LinkedList.rounds, LinkedList.malloc])
      rw [follow_eq hseg rfl (by simp) hshort]
      simp [lastOr]
    refine ⟨_, ?_, by simpa using hgood⟩
    rw [listAddNodeTail]
    exact (if_neg fun h => hlen h.2).trans (by rw [hfollow, ok_bind, hset, ok_bind])

theorem Good.insertAfter (h : Good list (l ++ (a, w) :: m)) (v : α) :
    ∃ list', listInsertNode list (some a) v true = .ok list' ∧
      Good list' (l ++ (a, w) :: (list.fresh, v) :: m) := by
  obtain ⟨n, nodes, hnext, -, hset, hgood⟩ := h.splice v
  refine ⟨_, ?_, hgood⟩
  simp only [listInsertNode, if_true, hnext, ok_bind, hset]

/-- How a loop gets from the head to the node `b` behind `a`. -/
theorem Good.reach (h : Good list (l ++ (a, w) :: (b, v) :: m)) :
    Seg list.nodes list.head (l ++ [(a, w)]) (some b) ∧ b ∉ (l ++ [(a, w)]).map Prod.fst ∧
      (l ++ [(a, w)]).length < list.rounds := by
  have hshort := h.short
  have hseg := h.seg
  rw [List.append_cons] at hseg hshort
  obtain ⟨_, -, hl, -⟩ := hseg.split
  rw [List.length_append] at hshort
  exact ⟨hl, hseg.once.1, Nat.lt_of_le_of_lt (Nat.le_add_right ..) hshort⟩

theorem Good.insertBefore (h : Good list (l ++ (a, w) :: (b, v') :: m)) (v : α) :
    ∃ list', listInsertNode list (some b) v false = .ok list' ∧
      Good list' (l ++ (a, w) :: (list.fresh, v) :: (b, v') :: m) := by
  obtain ⟨n, nodes, -, hn, hset, hgood⟩ := h.splice v
  obtain rfl : n = some b := hn.1
  obtain ⟨hl, hb, hshort⟩ := h.reach
  rw [List.length_append, List.length_singleton] at hshort
  have hbefore : list.before b list.rounds list.head = .ok (some a) := before_eq hl hb (Nat.lt_of_succ_lt hshort)
  refine ⟨_, ?_, hgood⟩
  simp only [listInsertNode, Bool.false_eq_true, if_false, hbefore, ok_bind, hset]

theorem Good.insertFirst (h : Good list ((b, v') :: m)) (v : α) :
    listInsertNode list (some b) v false = .error .null := by
  have hbefore : list.before b list.rounds list.head = .error .null :=
    before_null h.seg (List.nodup_cons.mp h.seg.nodup).1 h.short
  simp only [listInsertNode, Bool.false_eq_true, if_false, hbefore, error_bind]

theorem listDelNode_eq {n : Option ℕ} {u : LinkedList α}
    (hfollow : list.follow (fun cur => cur = none ∨ cur = some b) list.rounds list.head list.head = .ok (some a))
    (hnext : list.next (some b) = .ok n) (hpre : list.setNext (some a) n = .ok u)
    (hnode : u.setNext (some b) none = .ok list') (hfree : list'.free = false) :
    listDelNode list (some b) = .ok { list' with len := decrement list'.len } := by
  simp only [listDelNode, hfollow, ok_bind, reduceCtorEq, if_false, hnext, hpre, hnode, hfree, Bool.false_eq_true]

theorem Good.delAfter (h : Good list (l ++ (a, w) :: (b, v) :: m)) :
    ∃ list', listDelNode list (some b) = .ok list' ∧ Good list' (l ++ (a, w) :: m) := by
  obtain ⟨hl, hb, hshort⟩ := h.reach
  have hfollow : list.follow (fun cur => cur = none ∨ cur = some b) list.rounds list.head list.head =
      .ok (some a) := by
    rw [follow_eq hl (by simp) (fun x hx => ?_) hshort]
    · simp [lastOr]
    · have hne : x.1 ≠ b := fun heq => hb (heq ▸ List.mem_map_of_mem hx)
      simp [hne]
  obtain ⟨_, hna, -, -, n, hnb, -⟩ := h.seg.split
  have hne : b ≠ a := fun heq => hb (heq ▸ by simp)
  have hnb' : Function.update list.nodes a (some ⟨n, w⟩) b = some ⟨n, v⟩ :=
    (Function.update_of_ne hne ..).trans hnb
  refine ⟨_, listDelNode_eq hfollow (next_eq hnb) (setNext_eq hna n) (setNext_eq hnb' none) h.free,
    h.seg.remove_after hnb _, ?_, fun x hx => h.fresh x ?_, h.free⟩
  · simp [decrement, h.len]
  · simp only [List.mem_append, List.mem_cons] at hx ⊢
    tauto

/-- The first node stays the head and loses the others. -/
theorem Good.delFirst (h : Good list ((a, w) :: m)) :
    ∃ list', listDelNode list (some a) = .ok list' ∧ Seg list'.nodes list'.head [(a, w)] none ∧
      list'.len = m.length ∧ list'.fresh = list.fresh ∧ list'.free = false := by
  obtain ⟨hhead, n, hn, -⟩ := h.seg
  have hfollow : list.follow (fun cur => cur = none ∨ cur = some a) list.rounds list.head list.head =
      .ok (some a) := by
    rw [hhead]
    exact follow_eq (seg_nil.mpr rfl) (by simp) nofun (Nat.zero_lt_of_lt h.short)
  have hn' : Function.update list.nodes a (some ⟨n, w⟩) a = some ⟨n, w⟩ := Function.update_self ..
  refine ⟨_, listDelNode_eq hfollow (next_eq hn) (setNext_eq hn n) (setNext_eq hn' none) h.free,
    ⟨hhead, none, Function.update_self .., rfl⟩, ?_, rfl, h.free⟩
  simp [decrement, h.len]

theorem Good.rewind (h : Good list ns) : ∃ list', listRewind list = .ok list' ∧ Good list' ns.reverse := by
  obtain ⟨nodes, head, heq, hseg⟩ := rewindLoop_eq h.seg (seg_nil.mpr rfl) (List.disjoint_nil_right _)
    (Nat.le_of_lt h.short)
  exact ⟨_, heq, by simpa using hseg, by simpa using h.len, fun x hx => h.fresh x (List.mem_reverse.mp hx),
    h.free⟩

end Steps

end CppBase.DataStructures.SingleList
