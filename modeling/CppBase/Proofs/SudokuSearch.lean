import CppBase.Lib.ExactCover
import CppBase.Sanity.DancingLinks

/-! The search over a matrix of links. It finds an exact cover if there is one; if not, it leaves
every link as it was. -/

namespace CppBase.Muduo.Sudoku

open CppBase.Lib

variable {M : Layout (ℕ × ℕ)} {C : List ℕ} {A : Set (ℕ × ℕ)} {L : ℕ → List ℕ} {name : ℕ → ℕ} {c n : ℕ}

section Reading

theorem readRow_chain {s : Nodes} {l : List ℕ} {x stop i v fuel : ℕ} {cell val : Option ℕ}
    (hchain : (l ++ [stop]).IsChain fun a b => s.right a = b) (hx : (l ++ [stop]).head? = some x)
    (hrow : ∀ k ∈ l, (s.name k < 100 → s.name k = i) ∧ (100 ≤ s.name k → s.name k % 10 = v))
    (hcell : cell = some i ∨ cell = none ∧ ∃ k ∈ l, s.name k < 100)
    (hval : val = some v ∨ val = none ∧ ∃ k ∈ l, 100 ≤ s.name k) (hfuel : l.length ≤ fuel) :
    s.readRow fuel x cell val = .ok (i, v) := by
  induction l generalizing x fuel cell val with
  | nil =>
    obtain rfl : cell = some i := by simpa using hcell
    obtain rfl : val = some v := by simpa using hval
    rw [Nodes.readRow]
  | cons k l ih =>
    obtain rfl : k = x := by simpa using hx
    obtain ⟨fuel, rfl⟩ : ∃ m, fuel = m + 1 := ⟨fuel - 1, by rw [List.length_cons] at hfuel; omega⟩
    rw [List.length_cons, Nat.add_le_add_iff_right] at hfuel
    obtain ⟨hk, hrow⟩ := List.forall_mem_cons.mp hrow
    rw [List.cons_append, List.isChain_cons] at hchain
    obtain ⟨hnext, hchain⟩ := hchain
    have hhead : (l ++ [stop]).head? = some (s.right k) := by
      cases hl : (l ++ [stop]).head? with
      | none => simp at hl
      | some y => rw [hnext y hl]
    by_cases hdone : cell = some i ∧ val = some v
    · rw [hdone.1, hdone.2, Nodes.readRow]
    have hstep : s.readRow (fuel + 1) k cell val =
        if s.name k < 100 then s.readRow fuel (s.right k) (some (s.name k)) val
        else s.readRow fuel (s.right k) cell (some (s.name k % 10)) := by
      rcases hcell with rfl | ⟨rfl, -⟩
      · rcases hval with rfl | ⟨rfl, -⟩
        · exact absurd ⟨rfl, rfl⟩ hdone
        · rfl
      · rcases hval with rfl | ⟨rfl, -⟩
        · rfl
        · rfl
    rw [hstep]
    by_cases hlt : s.name k < 100
    · rw [if_pos hlt, hk.1 hlt]
      refine ih hchain hhead hrow (.inl rfl) (hval.imp_right ?_) hfuel
      rintro ⟨hnone, m, hm, hge⟩
      rcases List.mem_cons.mp hm with rfl | hm
      · omega
      · exact ⟨hnone, m, hm, hge⟩
    · rw [if_neg hlt, hk.2 (by omega)]
      refine ih hchain hhead hrow (hcell.imp_right ?_) (.inl rfl) hfuel
      rintro ⟨hnone, m, hm, hlt'⟩
      rcases List.mem_cons.mp hm with rfl | hm
      · exact absurd hlt' hlt
      · exact ⟨hnone, m, hm, hlt'⟩

theorem readRow_eq {s : Nodes} (h : Placed M s) (hname : Named M s.name) (hn : n ∈ M.nodes) :
    s.readRow rounds n none none = .ok (M.row n) := by
  have hring := h.rows n hn
  have hsame : ∀ k ∈ n :: M.others n, k ∈ M.nodes ∧ M.row k = M.row n := by
    intro k hk
    rcases List.mem_cons.mp hk with rfl | hk
    · exact ⟨hn, rfl⟩
    · exact ((M.mem_others n hn k).mp hk).2
  have hchain := hring.chain.imp fun a b hab => hab.next_eq
  refine readRow_chain (l := n :: M.others n) (i := (M.row n).1) (v := (M.row n).2) hchain rfl (fun k hk => ?_)
    (.inr ⟨rfl, hname.some_cell n hn⟩) (.inr ⟨rfl, hname.some_value n hn⟩) ?_
  · obtain ⟨hk, hrow⟩ := hsame k hk
    rw [← hrow]
    exact ⟨hname.cell k hk, hname.value k hk⟩
  · exact Nat.le_of_lt_succ (Nat.succ_lt_succ (h.length_others hn))

/-- The board with the values of the rows `l`. -/
def written (M : Layout (ℕ × ℕ)) (l : List ℕ) (board : ℕ → ℕ) : ℕ → ℕ :=
  l.foldl (fun b n => Function.update b (M.row n).1 (M.row n).2) board

theorem runAll_writeRow {s : SudokuSolver} {l : List ℕ} (h : Placed M s.nodes) (hname : Named M s.nodes.name)
    (hl : ∀ n ∈ l, n ∈ M.nodes) :
    runAll SudokuSolver.writeRow s l = .ok { s with inout := written M l s.inout } := by
  induction l generalizing s with
  | nil => rfl
  | cons n l ih =>
    obtain ⟨hn, hl⟩ := List.forall_mem_cons.mp hl
    have hstep : s.writeRow n = .ok { s with inout := Function.update s.inout (M.row n).1 (M.row n).2 } := by
      rw [SudokuSolver.writeRow, readRow_eq h hname hn, ok_bind]
      exact if_pos (hname.bound n hn)
    rw [runAll_cons hstep, ih (s := { s with inout := Function.update s.inout (M.row n).1 (M.row n).2 }) h hname hl]
    rfl

end Reading

section Choosing

variable {s : SudokuSolver}

theorem minLoop_mem (hring : LinkRing s.nodes.right s.nodes.left s.root C) {pre l : List ℕ} {cc fuel : ℕ}
    {minSize : ℤ} (heq : C = pre ++ l) (hcc : (l ++ [s.root]).head? = some cc) (hc : c ∈ C) (hfuel : l.length < fuel) :
    ∃ d ∈ C, s.minLoop fuel cc c minSize = .ok d := by
  induction l generalizing pre cc c fuel minSize with
  | nil =>
    obtain ⟨fuel, rfl⟩ : ∃ m, fuel = m + 1 := ⟨fuel - 1, by rw [List.length_nil] at hfuel; omega⟩
    obtain rfl : s.root = cc := by simpa using hcc
    exact ⟨c, hc, if_pos rfl⟩
  | cons k l ih =>
    obtain rfl : k = cc := by simpa using hcc
    rw [List.length_cons] at hfuel
    obtain ⟨fuel, rfl⟩ : ∃ m, fuel = m + 1 := ⟨fuel - 1, by omega⟩
    have hk : k ∈ C := by simp [heq]
    have hne : k ≠ s.root := fun hroot => (List.nodup_cons.mp hring.nodup).1 (hroot ▸ hk)
    have hnext : (l ++ [s.root]).head? = some (s.nodes.right k) := by
      rw [heq] at hring
      exact hring.next_of_split
    have hsplit : C = (pre ++ [k]) ++ l := by simp [heq]
    have hrest : ∀ d ∈ C, ∀ m, ∃ d' ∈ C, s.minLoop fuel (s.nodes.right k) d m = .ok d' := fun d hd m =>
      ih hsplit hnext hd (by omega)
    rw [SudokuSolver.minLoop, if_neg hne]
    split_ifs
    · exact ⟨k, hk, rfl⟩
    · exact hrest k hk _
    · exact hrest c hc _

theorem getMinColumn_mem (hring : LinkRing s.nodes.right s.nodes.left s.root C) (hC : C ≠ [])
    (hlen : C.length < rounds) : ∃ d ∈ C, s.getMinColumn = .ok d := by
  cases C with
  | nil => exact absurd rfl hC
  | cons k l =>
    have hfirst : k = s.nodes.right s.root := by simpa using hring.first
    have hk : s.nodes.right s.root ∈ k :: l := hfirst ▸ List.mem_cons_self
    have hnext : (l ++ [s.root]).head? = some (s.nodes.right (s.nodes.right s.root)) := by
      rw [← hfirst]
      have hring' : LinkRing s.nodes.right s.nodes.left s.root ([] ++ k :: l) := hring
      exact hring'.next_of_split
    rw [SudokuSolver.getMinColumn]
    split_ifs
    · exact minLoop_mem hring (show k :: l = [k] ++ l from rfl) hnext hk (by rw [List.length_cons] at hlen; omega)
    · exact ⟨_, hk, rfl⟩

end Choosing

section Solving

variable {s t : SudokuSolver}

structure Outcome (M : Layout (ℕ × ℕ)) (C : List ℕ) (A : Set (ℕ × ℕ)) (s : SudokuSolver) (found : Bool)
    (t : SudokuSolver) : Prop where
  failed : found = false → t = s ∧ ∀ S, ¬ ExactCover M.hits {d | d ∈ C} A S
  solved : found = true → ∃ picked : List ℕ, (∀ n ∈ picked, n ∈ M.nodes) ∧
    ExactCover M.hits {d | d ∈ C} A {r | ∃ n ∈ picked, M.row n = r} ∧ t.inout = written M (s.stack ++ picked) s.inout

/-- The columns `C` of `s` with `c` covered. -/
structure Trying (M : Layout (ℕ × ℕ)) (C : List ℕ) (A : Set (ℕ × ℕ)) (L : ℕ → List ℕ) (s : SudokuSolver) (c : ℕ)
    (nodes : Nodes) : Prop where
  shows : Shows M C A L s.nodes
  mem : c ∈ C
  stack : ∀ n ∈ s.stack, n ∈ M.nodes
  undo : nodes.uncover c = .ok s.nodes
  name : nodes.name = s.nodes.name
  ring : LinkRing nodes.down nodes.up c (L c)
  covered : ∃ L', Shows M (C.filter (· ≠ c)) {r ∈ A | ¬ M.hits r c} L' nodes

/-- The loop over the rows of `c`, where the rows `pre` before have not led to a cover. -/
theorem tryRows_outcome {depth : ℕ} {nodes : Nodes} (h : Trying M C A L s c nodes)
    (hdeeper : ∀ {C' : List ℕ} {A' : Set (ℕ × ℕ)} {L' : ℕ → List ℕ} {u : SudokuSolver}, Shows M C' A' L' u.nodes →
      u.root = s.root → u.nodes.name = s.nodes.name → (∀ n ∈ u.stack, n ∈ M.nodes) → C'.length < C.length →
        ∃ found v, u.solve depth = .ok (found, v) ∧ Outcome M C' A' u found v)
    {pre l : List ℕ} {x fuel : ℕ} (heq : L c = pre ++ l) (hx : (l ++ [c]).head? = some x) (hfuel : l.length < fuel)
    (hpre : ∀ n ∈ pre, ∀ S, ¬ ExactCover M.hits (colsWithout M.hits {d | d ∈ C} (M.row n))
      (rowsBeside M.hits A (M.row n)) S) :
    ∃ found t, SudokuSolver.tryRows (SudokuSolver.solve depth) c fuel x { s with nodes } = .ok (found, t) ∧
      Outcome M C A s found t := by
  induction l generalizing pre x fuel with
  | nil =>
    obtain ⟨fuel, rfl⟩ : ∃ m, fuel = m + 1 := ⟨fuel - 1, by rw [List.length_nil] at hfuel; omega⟩
    obtain rfl : c = x := by simpa using hx
    refine ⟨false, s, ?_, ⟨fun _ => ⟨rfl, fun S hS => ?_⟩, fun hfound => by simp at hfound⟩⟩
    · rw [SudokuSolver.tryRows, if_pos rfl]
      simp only [h.undo, ok_bind]
    · have hclosed : ∀ r ∈ A, ∀ d, M.hits r d → d ∈ C := by
        rintro r hr d ⟨n, hn, rfl, rfl⟩
        exact h.shows.closed n hn hr
      obtain ⟨r, hr, ⟨n, hn, rfl, rfl⟩, hrest⟩ := hS.exists_row hclosed h.mem
      have hmem : n ∈ L (M.header n) := (h.shows.active n hn h.mem).mpr hr
      rw [heq, List.append_nil] at hmem
      exact hpre n hmem _ hrest
  | cons n l ih =>
    rw [List.length_cons] at hfuel
    obtain ⟨fuel, rfl⟩ : ∃ m, fuel = m + 1 := ⟨fuel - 1, by omega⟩
    obtain rfl : n = x := by simpa using hx
    have hn : n ∈ L c := by simp [heq]
    have hnode := (h.shows.mem c (h.shows.cols c h.mem) n hn).1
    have hne : n ≠ c := by
      rintro rfl
      exact (List.nodup_cons.mp h.ring.nodup).1 hn
    obtain ⟨L', hcovered⟩ := h.covered
    obtain ⟨u, C', L'', hu, hback, hname, hlen, hC, hshows⟩ := h.shows.takeRow h.mem hcovered hn
    have hstack : ∀ m ∈ s.stack ++ [n], m ∈ M.nodes := by
      intro m hm
      rcases List.mem_append.mp hm with hm | hm
      · exact h.stack m hm
      · exact List.mem_singleton.mp hm ▸ hnode
    obtain ⟨found, v, hv, hout⟩ := hdeeper (u := { s with stack := s.stack ++ [n], nodes := u }) hshows rfl
      (hname.trans h.name) hstack hlen
    have hstep : SudokuSolver.tryRows (SudokuSolver.solve depth) c (fuel + 1) n { s with nodes } =
        if found then .ok (true, v)
        else v.nodes.uncoverOthers n >>= fun nodes =>
          SudokuSolver.tryRows (SudokuSolver.solve depth) c fuel (nodes.down n)
            { v with stack := v.stack.dropLast, nodes } := by
      rw [SudokuSolver.tryRows, if_neg hne]
      simp only [hu, hv, ok_bind]
    rw [hstep]
    cases found with
    | true =>
      obtain ⟨picked, hpicked, hcover, hinout⟩ := hout.solved rfl
      refine ⟨true, v, rfl, ⟨fun hfound => by simp at hfound, fun _ => ⟨n :: picked, ?_, ?_, ?_⟩⟩⟩
      · exact List.forall_mem_cons.mpr ⟨hnode, hpicked⟩
      · rw [hC] at hcover
        have hactive : M.row n ∈ A := by
          obtain ⟨hnode, rfl⟩ := h.shows.mem c (h.shows.cols c h.mem) n hn
          exact (h.shows.active n hnode h.mem).mp hn
        have hset : {r | ∃ m ∈ n :: picked, M.row m = r} = insert (M.row n) {r | ∃ m ∈ picked, M.row m = r} := by
          ext r
          simp [eq_comm]
        rw [hset]
        exact hcover.insert hactive
      · rw [hinout, List.append_assoc, List.singleton_append]
    | false =>
      obtain ⟨rfl, hnone⟩ := hout.failed rfl
      rw [hC] at hnone
      have hagain : { s with nodes } = { { s with stack := s.stack ++ [n], nodes := u } with
          stack := (s.stack ++ [n]).dropLast, nodes } := by simp
      simp only [Bool.false_eq_true, if_false, hback, ok_bind]
      rw [← hagain]
      have hring := h.ring
      rw [heq] at hring
      have hsplit : L c = (pre ++ [n]) ++ l := by simp [heq]
      refine ih hsplit hring.next_of_split (by omega) fun m hm => ?_
      rcases List.mem_append.mp hm with hm | hm
      · exact hpre m hm
      · rw [List.mem_singleton.mp hm]
        exact hnone

/-- With enough depth `solve` finds an exact cover if there is one. -/
theorem solve_outcome {depth : ℕ} (h : Shows M C A L s.nodes) (hroot : s.root = M.root) (hname : Named M s.nodes.name)
    (hstack : ∀ n ∈ s.stack, n ∈ M.nodes) (hdepth : C.length < depth) :
    ∃ found t, s.solve depth = .ok (found, t) ∧ Outcome M C A s found t := by
  induction depth generalizing s C A L with
  | zero => omega
  | succ depth ih =>
    have hheaders : LinkRing s.nodes.right s.nodes.left s.root C := hroot ▸ h.headers
    by_cases hC : C = []
    · subst hC
      have hleft : s.nodes.left s.root = s.root := (linkRing_nil.mp hheaders).2
      refine ⟨true, { s with inout := written M s.stack s.inout }, ?_, ⟨fun hfound => by simp at hfound, fun _ => ?_⟩⟩
      · rw [SudokuSolver.solve, if_pos hleft, runAll_writeRow h.toPlaced hname hstack, ok_bind]
      · refine ⟨[], by simp, ?_, by simp⟩
        have hnone : {r | ∃ n ∈ ([] : List ℕ), M.row n = r} = ∅ := by simp
        rw [hnone]
        exact exactCover_empty (by simp)
    · have hlen : C.length < rounds :=
        length_lt_rounds (List.nodup_cons.mp hheaders.nodup).2 fun d hd => M.col_bound d (h.cols d hd)
      obtain ⟨c, hc, hmin⟩ := getMinColumn_mem hheaders hC hlen
      obtain ⟨nodes, L', hcover, hundo, hname', hL, hcovered⟩ := h.cover hc
      have hleft : s.nodes.left s.root ≠ s.root := by
        intro hloop
        have hfirst := hheaders.symm.first
        rw [hloop] at hfirst
        cases hrev : C.reverse with
        | nil => exact hC (List.reverse_eq_nil_iff.mp hrev)
        | cons k l =>
          have hk : k = s.root := by simpa [hrev] using hfirst
          have hmem : s.root ∈ C.reverse := by simp [hrev, hk]
          exact (List.nodup_cons.mp hheaders.nodup).1 (List.mem_reverse.mp hmem)
      have hring : LinkRing nodes.down nodes.up c (L c) := hL ▸ hcovered.ring c (h.cols c hc)
      have htrying : Trying M C A L s c nodes := ⟨h, hc, hstack, hundo, hname', hring, L', hcovered⟩
      obtain ⟨found, t, ht, hout⟩ := tryRows_outcome htrying
        (fun hshows hroot' hname'' hstack' hlt =>
          ih hshows (hroot'.trans hroot) (hname''.symm ▸ hname) hstack' (by omega))
        (show L c = [] ++ L c from rfl) hring.first (h.length_column hc) (by simp)
      refine ⟨found, t, ?_, hout⟩
      rw [SudokuSolver.solve, if_neg hleft]
      simp only [hmin, hcover, ok_bind]
      exact ht

end Solving

end CppBase.Muduo.Sudoku
