import CppBase.Lib.Fallible
import Mathlib.Data.List.Chain
import Mathlib.Data.List.Nodup

/-! Circular lists that are linked in both directions, and loops that go once around one. -/

namespace CppBase.Lib

variable {κ : Type}

structure Linked (next prev : κ → κ) (a b : κ) : Prop where
  next_eq : next a = b
  prev_eq : prev b = a

/-- From `x` once around by way of `l`. -/
structure LinkRing (next prev : κ → κ) (x : κ) (l : List κ) : Prop where
  nodup : (x :: l).Nodup
  chain : (x :: (l ++ [x])).IsChain (Linked next prev)

variable {next prev next' prev' : κ → κ} {x a j new : κ} {l pre post : List κ}

theorem linkRing_nil : LinkRing next prev x [] ↔ next x = x ∧ prev x = x := by
  constructor
  · intro h
    have hx := (List.isChain_cons_cons.mp h.chain).1
    exact ⟨hx.next_eq, hx.prev_eq⟩
  · rintro ⟨hnext, hprev⟩
    exact ⟨List.nodup_singleton x, List.isChain_pair.mpr ⟨hnext, hprev⟩⟩

namespace LinkRing

theorem congr (h : LinkRing next prev x l) (hsame : ∀ a ∈ x :: l, next' a = next a ∧ prev' a = prev a) :
    LinkRing next' prev' x l := by
  have hmem : ∀ a ∈ x :: (l ++ [x]), a ∈ x :: l := by
    intro a ha
    simpa [or_comm, or_left_comm] using ha
  refine ⟨h.nodup, h.chain.imp_of_mem_imp fun a b ha hb hab => ⟨?_, ?_⟩⟩
  · exact (hsame a (hmem a ha)).1.trans hab.next_eq
  · exact (hsame b (hmem b hb)).2.trans hab.prev_eq

theorem symm (h : LinkRing next prev x l) : LinkRing prev next x l.reverse := by
  refine ⟨?_, ?_⟩
  · rw [List.nodup_cons, List.mem_reverse, List.nodup_reverse]
    exact List.nodup_cons.mp h.nodup
  · have hrev : x :: (l.reverse ++ [x]) = (x :: (l ++ [x])).reverse := by simp
    rw [hrev, List.isChain_reverse]
    exact h.chain.imp fun a b hab => ⟨hab.prev_eq, hab.next_eq⟩

theorem first (h : LinkRing next prev x l) : (l ++ [x]).head? = some (next x) := by
  have hchain := h.chain
  cases l with
  | nil => rw [(linkRing_nil.mp h).1]; rfl
  | cons a l => rw [((List.isChain_cons_cons.mp hchain).1).next_eq]; rfl

theorem next_of_split (h : LinkRing next prev x (pre ++ a :: post)) : (post ++ [x]).head? = some (next a) := by
  have hchain : ((x :: pre) ++ a :: (post ++ [x])).IsChain (Linked next prev) := by simpa using h.chain
  have hrest := hchain.right_of_append
  cases post with
  | nil => rw [(List.isChain_cons_cons.mp hrest).1.next_eq]; rfl
  | cons b post => rw [(List.isChain_cons_cons.mp hrest).1.next_eq]; rfl

/-- The links around one that is not `x`. -/
theorem around (h : LinkRing next prev x l) (hj : j ∈ l) :
    next j ∈ x :: l ∧ next j ≠ j ∧ prev (next j) = j := by
  obtain ⟨pre, post, rfl⟩ := List.append_of_mem hj
  have hchain : ((x :: pre) ++ j :: (post ++ [x])).IsChain (Linked next prev) := by simpa using h.chain
  have hhead := h.next_of_split
  have hmem : next j ∈ post ++ [x] := List.mem_of_mem_head? hhead
  have hlink : Linked next prev j (next j) := hchain.right_of_append.rel_head? hhead
  have hnodup := h.nodup
  rw [List.nodup_cons, List.nodup_append, List.nodup_cons] at hnodup
  refine ⟨?_, ?_, hlink.prev_eq⟩
  · rcases List.mem_append.mp hmem with hpost | hx
    · simp [hpost]
    · simp [List.mem_singleton.mp hx]
  · intro heq
    rw [heq] at hmem
    rcases List.mem_append.mp hmem with hpost | hx
    · exact hnodup.2.2.1.1 hpost
    · exact hnodup.1 (by simp [List.mem_singleton.mp hx])

theorem last (h : LinkRing next prev x l) : (x :: l).getLast? = some (prev x) := by
  have hfirst := h.symm.first
  rwa [← List.reverse_cons, List.head?_reverse] at hfirst

theorem prev_mem (h : LinkRing next prev x l) : prev x ∈ x :: l := List.mem_of_mem_getLast? h.last

theorem rotate (h : LinkRing next prev x (a :: l)) : LinkRing next prev a (l ++ [x]) := by
  have hfirst := (List.isChain_cons_cons.mp h.chain).1
  have hrest := (List.isChain_cons_cons.mp h.chain).2
  refine ⟨?_, ?_⟩
  · rw [← List.cons_append, List.nodup_append_comm, List.singleton_append]
    exact h.nodup
  · have hshape : a :: (l ++ [x] ++ [a]) = (a :: (l ++ [x])) ++ [a] := rfl
    rw [hshape, List.isChain_append]
    refine ⟨hrest, List.isChain_singleton a, fun b hb y hy => ?_⟩
    rw [← List.cons_append, List.getLast?_concat] at hb
    obtain rfl : x = b := Option.some.inj hb
    obtain rfl : a = y := by simpa using hy
    exact hfirst

variable [DecidableEq κ]

theorem unlink (h : LinkRing next prev x l) (hj : j ∈ l) :
    LinkRing (Function.update next (prev j) (next j)) (Function.update prev (next j) (prev j)) x
      (l.filter (· ≠ j)) := by
  obtain ⟨pre, post, rfl⟩ := List.append_of_mem hj
  have hnodup := h.nodup
  rw [List.nodup_cons, List.nodup_append, List.nodup_cons] at hnodup
  obtain ⟨hx, -, ⟨hjpost, -⟩, hdisj⟩ := hnodup
  have hxj : x ≠ j := fun heq => hx (by simp [heq])
  have hpre : ∀ a ∈ pre, a ≠ j := fun a ha => hdisj a ha j List.mem_cons_self
  have hpost : ∀ a ∈ post, a ≠ j := fun a ha heq => hjpost (heq ▸ ha)
  have hfilter : (pre ++ j :: post).filter (· ≠ j) = pre ++ post := by
    rw [List.filter_append, List.filter_cons_of_neg (by simp), List.filter_eq_self.mpr (by simpa using hpre),
      List.filter_eq_self.mpr (by simpa using hpost)]
  -- a link that misses `j` is not touched: what is behind `prev j` or before `next j` is `j`
  have hkeep : ∀ a b, a ≠ j → b ≠ j → Linked next prev a b →
      Linked (Function.update next (prev j) (next j)) (Function.update prev (next j) (prev j)) a b := by
    intro a b ha hb hab
    have hnextj : prev (next j) = j := (h.around hj).2.2
    have hprevj : next (prev j) = j := (h.symm.around (List.mem_reverse.mpr hj)).2.2
    refine ⟨?_, ?_⟩
    · rw [Function.update_of_ne, hab.next_eq]
      rintro rfl
      exact hb (hab.next_eq.symm.trans hprevj)
    · rw [Function.update_of_ne, hab.prev_eq]
      rintro rfl
      exact ha (hab.prev_eq.symm.trans hnextj)
  have hchain : ((x :: pre) ++ j :: (post ++ [x])).IsChain (Linked next prev) := by simpa using h.chain
  rw [List.isChain_append] at hchain
  obtain ⟨hleft, hright, hjoin⟩ := hchain
  rw [List.isChain_cons] at hright
  obtain ⟨hjb, hright⟩ := hright
  rw [hfilter]
  refine ⟨h.nodup.sublist (by simp), ?_⟩
  have hshape : x :: (pre ++ post ++ [x]) = (x :: pre) ++ (post ++ [x]) := by simp
  rw [hshape, List.isChain_append]
  refine ⟨?_, ?_, ?_⟩
  · refine hleft.imp_of_mem_imp fun a b ha hb hab => hkeep a b ?_ ?_ hab
    · rcases List.mem_cons.mp ha with rfl | ha
      · exact hxj
      · exact hpre a ha
    · rcases List.mem_cons.mp hb with rfl | hb
      · exact hxj
      · exact hpre b hb
  · refine hright.imp_of_mem_imp fun a b ha hb hab => hkeep a b ?_ ?_ hab
    · rcases List.mem_append.mp ha with ha | ha
      · exact hpost a ha
      · exact List.mem_singleton.mp ha ▸ hxj
    · rcases List.mem_append.mp hb with hb | hb
      · exact hpost b hb
      · exact List.mem_singleton.mp hb ▸ hxj
  · intro a ha b hb
    have haj := hjoin a ha j rfl
    have hjb := hjb b hb
    refine ⟨?_, ?_⟩
    · rw [haj.prev_eq, Function.update_self, hjb.next_eq]
    · rw [hjb.next_eq, Function.update_self, haj.prev_eq]

theorem insert_last (h : LinkRing next prev x l) (hnew : new ∉ x :: l) :
    LinkRing (Function.update (Function.update next new x) (prev x) new)
      (Function.update (Function.update prev new (prev x)) x new) x (l ++ [new]) := by
  rw [List.mem_cons, not_or] at hnew
  obtain ⟨hnewx, hnewl⟩ := hnew
  have hnodup := h.nodup
  have hlast := h.last
  have hprevnew : prev x ≠ new := by
    intro heq
    rcases List.mem_cons.mp (heq ▸ h.prev_mem) with hx | hl
    · exact hnewx hx
    · exact hnewl hl
  have hchain : ((x :: l) ++ [x]).IsChain (Linked next prev) := h.chain
  rw [List.isChain_append] at hchain
  obtain ⟨hleft, -, hjoin⟩ := hchain
  have hend : Linked next prev (prev x) x := hjoin (prev x) hlast x rfl
  refine ⟨?_, ?_⟩
  · rw [← List.cons_append, List.nodup_append]
    refine ⟨hnodup, List.nodup_singleton new, fun a ha b hb heq => ?_⟩
    rw [heq, List.mem_singleton.mp hb, List.mem_cons] at ha
    exact ha.elim hnewx hnewl
  · have hshape : x :: (l ++ [new] ++ [x]) = (x :: l) ++ [new, x] := by simp
    rw [hshape, List.isChain_append, List.isChain_pair]
    refine ⟨?_, ⟨?_, Function.update_self ..⟩, ?_⟩
    · refine hleft.imp_of_mem_tail_imp fun a b ha hb hab => ⟨?_, ?_⟩
      · have hbx : b ≠ x := fun heq => (List.nodup_cons.mp hnodup).1 (heq ▸ hb)
        have hprev : a ≠ prev x := by
          rintro rfl
          exact hbx (hab.next_eq.symm.trans hend.next_eq)
        have hne : a ≠ new := fun heq => (List.mem_cons.mp (heq ▸ ha)).elim hnewx hnewl
        rw [Function.update_of_ne hprev, Function.update_of_ne hne, hab.next_eq]
      · have hbx : b ≠ x := fun heq => (List.nodup_cons.mp hnodup).1 (heq ▸ hb)
        have hne : b ≠ new := fun heq => hnewl (heq ▸ hb)
        rw [Function.update_of_ne hbx, Function.update_of_ne hne, hab.prev_eq]
    · rw [Function.update_of_ne hprevnew.symm, Function.update_self]
    · intro a ha b hb
      obtain rfl : prev x = a := Option.some.inj (hlast.symm.trans ha)
      obtain rfl : new = b := Option.some.inj hb
      refine ⟨Function.update_self .., ?_⟩
      rw [Function.update_of_ne hnewx, Function.update_self]

end LinkRing

section Walking

variable {σ φ : Type}

/-- What each step did is undone in the opposite order. -/
theorem runAll_undo {step undo : σ → κ → Except φ σ} {s t : σ} (h : runAll step s l = .ok t)
    (hundo : ∀ pre x post u v, l = pre ++ x :: post → runAll step s pre = .ok u → step u x = .ok v →
      undo v x = .ok u) :
    runAll undo t l.reverse = .ok s := by
  induction l generalizing s with
  | nil =>
    obtain rfl : s = t := by simpa using h
    rfl
  | cons x l ih =>
    obtain ⟨u, hu, hrest⟩ := runAll_cons_ok h
    have hback := ih hrest fun pre y post v w heq hpre =>
      hundo (x :: pre) y post v w (by rw [heq, List.cons_append]) (by rw [runAll_cons hu, hpre])
    rw [List.reverse_cons, runAll_append hback, runAll_cons (hundo [] x l s u rfl rfl hu)]
    rfl

variable [DecidableEq κ]

/-- `for (x = first; x != stop; x = x->next) body(x)`, for a limited number of rounds. -/
def walk (next : σ → κ → κ) (stop : κ) (body : σ → κ → Except φ σ) (endless : φ) : ℕ → κ → σ → Except φ σ
  | 0, _, _ => .error endless
  | rounds + 1, x, s =>
    if x = stop then .ok s
    else do
      let t ← body s x
      walk next stop body endless rounds (next t x) t

variable {next : σ → κ → κ} {stop first : κ} {body : σ → κ → Except φ σ} {endless : φ} {rounds : ℕ} {s : σ}

/-- Where the next is always that of the list, the loop takes the list in order. -/
theorem walk_eq_runAll (hfirst : (l ++ [stop]).head? = some first) (hstop : stop ∉ l) (hrounds : l.length < rounds)
    (hnext : ∀ pre x post t, l = pre ++ x :: post → runAll body s (pre ++ [x]) = .ok t →
      (post ++ [stop]).head? = some (next t x)) :
    walk next stop body endless rounds first s = runAll body s l := by
  obtain ⟨rounds, rfl⟩ : ∃ n, rounds = n + 1 := ⟨rounds - 1, by omega⟩
  induction l generalizing s first rounds with
  | nil =>
    obtain rfl : stop = first := by simpa using hfirst
    rw [walk, if_pos rfl]
    rfl
  | cons x l ih =>
    obtain ⟨hx, hl⟩ := not_or.mp (fun h => hstop (List.mem_cons.mpr h))
    obtain rfl : x = first := by simpa using hfirst
    obtain ⟨rounds, rfl⟩ : ∃ n, rounds = n + 1 := ⟨rounds - 1, by rw [List.length_cons] at hrounds; omega⟩
    rw [walk, if_neg (Ne.symm hx)]
    cases ht : body s x with
    | error e => rw [error_bind, runAll_cons_error ht]
    | ok t =>
      rw [ok_bind, runAll_cons ht]
      have hone : runAll body s ([] ++ [x]) = .ok t := by rw [List.nil_append, runAll_cons ht]; rfl
      refine ih (hnext [] x l t rfl hone) hl (fun pre y post u heq hpre => ?_) rounds ?_
      · exact hnext (x :: pre) y post u (by rw [heq, List.cons_append])
          (by rw [List.cons_append, runAll_cons ht, hpre])
      · rw [List.length_cons] at hrounds
        omega

section Around

variable {prev : σ → κ → κ} {step undo : σ → κ → Except φ σ} {t : σ} {x : κ}

/-- A loop around a ring that its body leaves as it is. -/
theorem walk_ring (hring : ∀ pre post u, l = pre ++ post → runAll step s pre = .ok u → LinkRing (next u) (prev u) x l)
    (hrounds : l.length < rounds) : walk next x step endless rounds (next s x) s = runAll step s l := by
  have hstart := hring [] l s rfl rfl
  refine walk_eq_runAll hstart.first (List.nodup_cons.mp hstart.nodup).1 hrounds fun pre y post u heq hu => ?_
  have hu := hring (pre ++ [y]) post u (by simp [heq]) hu
  rw [heq] at hu
  exact hu.next_of_split

/-- A loop the other way around that undoes it. -/
theorem walk_ring_undo
    (hring : ∀ pre post u, l = pre ++ post → runAll step s pre = .ok u → LinkRing (next u) (prev u) x l)
    (hrounds : l.length < rounds) (h : runAll step s l = .ok t)
    (hundo : ∀ pre y post u v, l = pre ++ y :: post → runAll step s pre = .ok u → step u y = .ok v →
      undo v y = .ok u) :
    walk prev x undo endless rounds (prev t x) t = .ok s := by
  have hend := (hring l [] t (by simp) h).symm
  rw [walk_eq_runAll hend.first (List.nodup_cons.mp hend.nodup).1 (by simpa using hrounds) ?_, runAll_undo h hundo]
  intro pre y post v heq hv
  have hl : l = post.reverse ++ y :: pre.reverse := by
    rw [← List.reverse_reverse l, heq]
    simp
  obtain ⟨u, hu, hrest⟩ := exists_of_runAll_append (hl ▸ h)
  have hback : runAll undo t (pre ++ [y]) = .ok u := by
    have hrev := runAll_undo hrest fun pre' z post' u' v' heq' hu' hz =>
      hundo (post.reverse ++ pre') z post' u' v' (by rw [hl, heq', List.append_assoc])
        (by rw [runAll_append hu, hu']) hz
    simpa using hrev
  obtain rfl : u = v := by simpa using hback.symm.trans hv
  have hring' := (hring post.reverse (y :: pre.reverse) u hl hu).symm
  rw [heq] at hring'
  exact hring'.next_of_split

end Around

end Walking

end CppBase.Lib
