import CppBase.Sanity.ListSteps

/-! The linked list against a sequence of values. All operations keep to it but those on
the first node and `listEmpty`, which leaves the length; `listIndex` is one node too far. -/

namespace CppBase.DataStructures.SingleList

open CppBase.Lib

variable {α : Type} {list list' : LinkedList α} {l : List α} {ns : List (ℕ × α)} {i : ℕ} {op : Op α}

section Safety

/-- The nodes reachable from the head hold the values `l`, and `len` is their number. -/
def Holds (list : LinkedList α) (l : List α) : Prop :=
  ∃ ns, Seg list.nodes list.head ns none ∧ list.len = ns.length ∧ ns.map Prod.snd = l

/-- The operations that keep to the reference: not before or of the first node, but for
one that is followed by an equal one only, and no `listEmpty` but of an empty list. -/
def Safe (l : List α) : Op α → Prop
  | .insert i _ after => after = true ∨ i ≠ 0 ∨ l = []
  | .del i => i ≠ 0 ∨ l = [] ∨ ∃ x, l = [x, x]
  | .empty => l = []
  | _ => True

/-- The list is in order and holds `l`. -/
def Tracks (list : LinkedList α) (l : List α) : Prop := ∃ ns, Good list ns ∧ ns.map Prod.snd = l

theorem Tracks.holds (h : Tracks list l) : Holds list l := by
  obtain ⟨ns, hgood, hl⟩ := h
  exact ⟨ns, hgood.seg, hgood.len, hl⟩

theorem Good.split (h : Good list ns) (hi : i < ns.length) :
    ∃ l a w m, ns = l ++ (a, w) :: m ∧ l.length = i ∧ list.nodeAt i = some a := by
  refine ⟨ns.take i, ns[i].1, ns[i].2, ns.drop (i + 1), ?_, List.length_take_of_le (Nat.le_of_lt hi), ?_⟩
  · rw [← List.drop_eq_getElem_cons hi, List.take_append_drop]
  · rw [h.nodeAt_eq, List.getElem?_eq_getElem hi]
    rfl

theorem insertIdx_length (l m : List α) (v : α) : (l ++ m).insertIdx l.length v = l ++ v :: m :=
  List.modifyTailIdx_add (List.cons v) 0 l m

theorem insert_step (h : Good list ns) (v : α) {after : Bool} (hsafe : after = true ∨ i ≠ 0 ∨ ns = []) :
    ∃ list', step list (.insert i v after) = .ok list' ∧
      Tracks list' (reference (ns.map Prod.snd) (.insert i v after)) := by
  rw [step, reference, List.length_map]
  by_cases hi : i < ns.length
  · obtain ⟨l, a, w, m, rfl, rfl, hnode⟩ := h.split hi
    rw [if_pos hi, hnode]
    cases after with
    | true =>
      obtain ⟨list', hstep, hgood⟩ := h.insertAfter v
      have hval := insertIdx_length (l.map Prod.snd ++ [w]) (m.map Prod.snd) v
      exact ⟨list', hstep, _, hgood, by simpa using hval.symm⟩
    | false =>
      obtain rfl | ⟨l, ⟨b, u⟩, rfl⟩ := List.eq_nil_or_concat' l
      · simp at hsafe
      · -- the node before it is the one that the loop stops at
        rw [List.append_assoc, List.singleton_append] at h
        obtain ⟨list', hstep, hgood⟩ := h.insertBefore v
        have hval := insertIdx_length (l.map Prod.snd ++ [u]) (w :: m.map Prod.snd) v
        exact ⟨list', hstep, _, hgood, by simpa using hval.symm⟩
  · rw [if_neg hi, h.nodeAt_eq, List.getElem?_eq_none (Nat.not_lt.mp hi)]
    exact ⟨list, rfl, ns, h, rfl⟩

theorem del_step (h : Good list ns) (hsafe : i ≠ 0 ∨ ns.map Prod.snd = [] ∨ ∃ x, ns.map Prod.snd = [x, x]) :
    ∃ list', step list (.del i) = .ok list' ∧ Tracks list' (reference (ns.map Prod.snd) (.del i)) := by
  rw [step, reference]
  by_cases hi : i < ns.length
  · obtain ⟨l, a, w, m, rfl, rfl, hnode⟩ := h.split hi
    rw [hnode]
    obtain rfl | ⟨l, ⟨b, u⟩, rfl⟩ := List.eq_nil_or_concat' l
    · -- the head stays, but the node behind it has the same value
      obtain ⟨list', hstep, hseg, hlen, hfresh, hfree⟩ := h.delFirst
      obtain ⟨x, hx⟩ : ∃ x, ((a, w) :: m).map Prod.snd = [x, x] := by simpa using hsafe
      obtain ⟨rfl, hm⟩ := List.cons.inj hx
      have hone : m.length = 1 := by simpa using congrArg List.length hm
      refine ⟨list', hstep, [(a, w)], ⟨hseg, hlen.trans hone, ?_, hfree⟩, hm.symm⟩
      exact List.forall_mem_singleton.mpr (hfresh ▸ h.fresh (a, w) List.mem_cons_self)
    · rw [List.append_assoc, List.singleton_append] at h
      obtain ⟨list', hstep, hgood⟩ := h.delAfter
      refine ⟨list', hstep, _, hgood, ?_⟩
      simp [List.eraseIdx_append_of_length_le]
  · rw [h.nodeAt_eq, List.getElem?_eq_none (Nat.not_lt.mp hi), List.eraseIdx_of_length_le (by simpa using hi)]
    exact ⟨list, rfl, ns, h, rfl⟩

theorem Tracks.safe_step (h : Tracks list l) (hsafe : Safe l op) :
    ∃ list', step list op = .ok list' ∧ Tracks list' (reference l op) := by
  obtain ⟨ns, hgood, rfl⟩ := h
  cases op with
  | addHead v => exact ⟨_, rfl, _, hgood.addHead v, rfl⟩
  | addTail v =>
    obtain ⟨list', hstep, hgood'⟩ := hgood.addTail v
    exact ⟨list', hstep, _, hgood', by simp [reference]⟩
  | insert i v after => exact insert_step hgood v (by simpa [Safe] using hsafe)
  | del i => exact del_step hgood hsafe
  | empty =>
    obtain rfl : ns = [] := List.map_eq_nil_iff.mp hsafe
    have hhead : list.head = none := hgood.seg
    refine ⟨list, ?_, [], hgood, rfl⟩
    rw [step, listEmpty, LinkedList.rounds, emptyLoop, hhead]
  | rewind =>
    obtain ⟨list', hstep, hgood'⟩ := hgood.rewind
    exact ⟨list', hstep, _, hgood', List.map_reverse ..⟩

/-- Every other operation goes wrong at once. -/
theorem Tracks.wrong_step (h : Tracks list l) (hwrong : ¬ Safe l op) (hstep : step list op = .ok list') :
    ¬ Holds list' (reference l op) := by
  obtain ⟨ns, hgood, rfl⟩ := h
  cases op with
  | addHead v | addTail v | rewind => exact absurd trivial hwrong
  | insert i v after =>
    simp only [Safe, not_or, not_not, Bool.not_eq_true, List.map_eq_nil_iff] at hwrong
    obtain ⟨rfl, rfl, hne⟩ := hwrong
    obtain ⟨⟨b, u⟩, m, rfl⟩ := List.exists_cons_of_ne_nil hne
    rw [step, hgood.nodeAt_eq] at hstep
    cases (hgood.insertFirst v).symm.trans hstep
  | del i =>
    simp only [Safe, not_or, not_not, List.map_eq_nil_iff] at hwrong
    obtain ⟨rfl, hne, htwo⟩ := hwrong
    obtain ⟨⟨a, w⟩, m, rfl⟩ := List.exists_cons_of_ne_nil hne
    rw [step, hgood.nodeAt_eq] at hstep
    obtain ⟨list₁, hdel, hseg, hlen, -⟩ := hgood.delFirst
    obtain rfl : list₁ = list' := Except.ok.inj (hdel.symm.trans hstep)
    rintro ⟨ns', hseg', hlen', hval⟩
    obtain rfl := hseg.unique hseg'
    exact htwo ⟨w, congrArg (w :: ·) hval.symm⟩
  | empty =>
    obtain ⟨hhead, hlen⟩ := emptyLoop_ok hstep
    rintro ⟨ns', hseg, hlen', -⟩
    rw [hhead] at hseg
    obtain rfl : [] = ns' := Seg.unique rfl hseg
    rw [hlen, hgood.len] at hlen'
    exact hwrong (by simpa [Safe] using hlen')

end Safety

section Correctness

/-- `listIndex` finds the nodes from the first on. -/
def Indexed (list : LinkedList α) : Prop :=
  ∃ ns, Seg list.nodes list.head ns none ∧
    ∀ k : ℕ, 1 ≤ k → k ≤ list.len → listIndex list k = .ok (ns[k - 1]?.map Prod.fst)

theorem Holds.not_indexed (h : Holds list l) (hl : l ≠ []) : ¬ Indexed list := by
  obtain ⟨ns, hseg, hlen, rfl⟩ := h
  rintro ⟨ns', hseg', hindex⟩
  obtain rfl := hseg.unique hseg'
  obtain ⟨⟨a, w⟩, m, rfl⟩ := List.exists_cons_of_ne_nil (mt (congrArg (List.map Prod.snd)) hl)
  have hone : 1 ≤ list.len := by
    simp [hlen]
  have hwalk : listIndex list 1 = .ok (((a, w) :: m)[1]?.map Prod.fst) := by
    rw [listIndex, if_neg (by omega)]
    exact (walk_eq hseg 1).trans (if_pos (by simp))
  have hsame : m[0]?.map Prod.fst = some a := by
    simpa using hwalk.symm.trans (hindex 1 (Nat.le_refl 1) hone)
  obtain ⟨x, hx, hxa⟩ := Option.map_eq_some_iff.mp hsame
  have hmem : x.1 ∈ m.map Prod.fst := List.mem_map_of_mem (List.mem_of_getElem? hx)
  exact (List.nodup_cons.mp hseg.nodup).1 (hxa ▸ hmem)

def Op.adds : Op α → Bool
  | .addHead _ | .addTail _ => true
  | _ => false

theorem reference_ne_nil (h : op.adds = true) (l : List α) : reference l op ≠ [] := by
  cases op with
  | addHead v | addTail v => simp [reference]
  | insert | del | empty | rewind => cases h

/-- Without a node to begin with, only adding makes one. -/
theorem foldl_reference_nil {ops : List (Op α)} (h : ∀ op ∈ ops, op.adds = false) :
    ops.foldl reference [] = [] := by
  induction ops with
  | nil => rfl
  | cons op ops ih =>
    obtain ⟨hop, hops⟩ := List.forall_mem_cons.mp h
    have hnil : reference [] op = [] := by
      cases op with
      | addHead | addTail => cases hop
      | insert | del | empty | rewind => rfl
    rw [List.foldl_cons, hnil, ih hops]

/-- After every operation the list holds the values of the reference sequence exactly if
all are safe, and `listIndex` finds them too exactly if nothing is ever added. -/
theorem list_correct_iff (ops : List (Op α)) :
    ((∀ pre post, ops = pre ++ post → ∃ list, runAll step listCreate pre = .ok list ∧
        Holds list (pre.foldl reference []) ∧ Indexed list) ↔ ∀ op ∈ ops, op.adds = false) ∧
      ((∀ pre post, ops = pre ++ post → ∃ list, runAll step listCreate pre = .ok list ∧
          Holds list (pre.foldl reference [])) ↔
        ∀ pre op post, ops = pre ++ op :: post → Safe (pre.foldl reference []) op) := by
  have hstart : Tracks (listCreate : LinkedList α) [] := ⟨[], Good.start, rfl⟩
  have hkeeps : (∀ pre post, ops = pre ++ post → ∃ list, runAll step listCreate pre = .ok list ∧
      Holds list (pre.foldl reference [])) ↔
      ∀ pre op post, ops = pre ++ op :: post → Safe (pre.foldl reference []) op := by
    refine runAll_tracks_iff (I := Tracks) ?_ ?_ ?_ hstart
    · exact fun _ _ => Tracks.holds
    · exact fun _ _ _ => Tracks.safe_step
    · exact fun _ _ _ _ => Tracks.wrong_step
  refine ⟨⟨fun h op hop => ?_, fun hno pre post heq => ?_⟩, hkeeps⟩
  · obtain ⟨pre, post, rfl⟩ := List.append_of_mem hop
    obtain ⟨list, -, hholds, hindex⟩ := h (pre ++ [op]) post (by simp)
    rw [List.foldl_append, List.foldl_cons, List.foldl_nil] at hholds
    by_contra hadds
    exact hholds.not_indexed (reference_ne_nil (by simpa using hadds) _) hindex
  · have hnil : ∀ pre, pre <+: ops → pre.foldl reference [] = [] := fun pre hpre =>
      foldl_reference_nil fun op hop => hno op (hpre.subset hop)
    have hsafe : ∀ pre op post, ops = pre ++ op :: post → Safe (pre.foldl reference []) op := by
      intro pre op post heq
      rw [hnil pre ⟨_, heq.symm⟩]
      cases op with
      | addHead | addTail | rewind => trivial
      | insert => exact .inr (.inr rfl)
      | del => exact .inr (.inl rfl)
      | empty => rfl
    obtain ⟨list, hrun, hholds⟩ := hkeeps.mpr hsafe pre post heq
    refine ⟨list, hrun, hholds, ?_⟩
    obtain ⟨ns, hseg, hlen, hval⟩ := hholds
    rw [hnil pre ⟨_, heq.symm⟩, List.map_eq_nil_iff] at hval
    subst hval
    refine ⟨[], hseg, fun k hk hle => ?_⟩
    rw [hlen, List.length_nil] at hle
    omega

/-- Of two nodes the first is deleted, and stays while the second is lost. Inserting before
it follows `NULL`; `listEmpty` leaves the length, so that adding at the tail does. And the
first of the nodes is not found. -/
theorem list_goes_wrong :
    (∃ list, runAll step listCreate [.addTail 'a', .addTail 'b', .del 0] = .ok list ∧
        Seg list.nodes list.head [(0, 'a')] none ∧
        [Op.addTail 'a', .addTail 'b', .del 0].foldl reference [] = ['b']) ∧
      runAll step listCreate [.addTail 'a', .insert 0 'b' false] = .error .null ∧
      runAll step listCreate [.addTail 'a', .empty, .addTail 'b'] = .error .null ∧
      ∃ list, runAll step listCreate [.addTail 'a'] = .ok list ∧ Seg list.nodes list.head [(0, 'a')] none ∧
        list.len = 1 ∧ listIndex list 1 = .ok none :=
  ⟨⟨_, rfl, ⟨rfl, none, rfl, rfl⟩, rfl⟩, rfl, rfl, _, rfl, ⟨rfl, none, rfl, rfl⟩, rfl, rfl⟩

end Correctness

end CppBase.DataStructures.SingleList
