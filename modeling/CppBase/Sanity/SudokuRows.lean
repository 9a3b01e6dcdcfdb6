import CppBase.Sanity.DancingLinks
import CppBase.Sanity.SudokuColumns
import Mathlib.Data.List.GetD

/-! The rows that the constructor of the solver makes: four nodes for each value that a cell can
have. They stand behind those of the columns, in the order of the cells and the values. -/

namespace CppBase.Muduo.Sudoku

open CppBase.Lib SudokuSolver

variable {board : ℕ → ℕ} {s : SudokuSolver} {n m k : ℕ} {x : ℕ × ℕ}

section Places

/-- The condition in the last loop of the constructor. -/
def isCandidate (board : ℕ → ℕ) (x : ℕ × ℕ) : Bool :=
  board x.1 = 0 && !((marks board).rows (rowOf x.1) x.2 || (marks board).cols (colOf x.1) x.2 ||
    (marks board).boxes (boxOf x.1) x.2)

def candidates (board : ℕ → ℕ) : List (ℕ × ℕ) := (withValues kCells).filter (isCandidate board)

def base (board : ℕ → ℕ) : ℕ := (colNames board).length + 1

def rowAt (board : ℕ → ℕ) (n : ℕ) : ℕ × ℕ := (candidates board).getD ((n - base board) / 4) (0, 0)

def nodeName (x : ℕ × ℕ) : ℕ → ℕ
  | 0 => x.1
  | 1 => getRowCol (rowOf x.1) x.2
  | 2 => getColCol (colOf x.1) x.2
  | _ => getBoxCol (boxOf x.1) x.2

def nameAt (board : ℕ → ℕ) (n : ℕ) : ℕ := nodeName (rowAt board n) ((n - base board) % 4)

def headerAt (board : ℕ → ℕ) (n : ℕ) : ℕ := (colNames board).idxOf (nameAt board n) + 1

def behind : ℕ → List ℕ
  | 0 => [1, 2, 3]
  | 1 => [2, 3, 0]
  | 2 => [3, 0, 1]
  | _ => [0, 1, 2]

def othersAt (board : ℕ → ℕ) (n : ℕ) : List ℕ :=
  (behind ((n - base board) % 4)).map (n - (n - base board) % 4 + ·)

theorem mem_candidates : x ∈ candidates board ↔
    (x.1 < kCells ∧ 1 ≤ x.2 ∧ x.2 ≤ 9) ∧ board x.1 = 0 ∧ (marks board).rows (rowOf x.1) x.2 = false ∧
      (marks board).cols (colOf x.1) x.2 = false ∧ (marks board).boxes (boxOf x.1) x.2 = false := by
  rw [candidates, List.mem_filter, mem_withValues]
  simp [isCandidate, and_assoc]

theorem candidates_nodup (board : ℕ → ℕ) : (candidates board).Nodup := (withValues_nodup kCells).filter _

theorem length_candidates (board : ℕ → ℕ) : (candidates board).length ≤ 729 := by
  have hlen := List.length_filter_le (isCandidate board) (withValues kCells)
  rwa [length_withValues] at hlen

theorem rowAt_mem (hn : (n - base board) / 4 < (candidates board).length) : rowAt board n ∈ candidates board := by
  rw [rowAt, List.getD_eq_getElem _ _ hn]
  exact List.getElem_mem hn

theorem nodeName_mem (hx : x ∈ candidates board) (r : ℕ) : nodeName x r ∈ colNames board := by
  obtain ⟨⟨hi, hv, hv'⟩, hempty, hrows, hcols, hboxes⟩ := mem_candidates.mp hx
  have hrow : rowOf x.1 < 9 := by rw [rowOf]; rw [kCells] at hi; omega
  have hcol : colOf x.1 < 9 := by rw [colOf]; omega
  have hbox : boxOf x.1 < 9 := by rw [boxOf]; omega
  rw [colNames, List.mem_append]
  rcases r with _ | _ | _ | r
  · left
    exact List.mem_flatMap.mpr ⟨x.1, List.mem_range.mpr hi, by simp [nodeName, cellNames, hempty]⟩
  · right
    refine List.mem_flatMap.mpr ⟨(rowOf x.1, x.2), mem_withValues.mpr ⟨hrow, hv, hv'⟩, ?_⟩
    simp [nodeName, valueNames, hrows]
  · right
    refine List.mem_flatMap.mpr ⟨(colOf x.1, x.2), mem_withValues.mpr ⟨hcol, hv, hv'⟩, ?_⟩
    simp [nodeName, valueNames, hcols]
  · right
    refine List.mem_flatMap.mpr ⟨(boxOf x.1, x.2), mem_withValues.mpr ⟨hbox, hv, hv'⟩, ?_⟩
    simp [nodeName, valueNames, hboxes]

theorem nameAt_mem (hn : (n - base board) / 4 < (candidates board).length) : nameAt board n ∈ colNames board :=
  nodeName_mem (rowAt_mem hn) _

theorem headerAt_bound (hn : (n - base board) / 4 < (candidates board).length) :
    1 ≤ headerAt board n ∧ headerAt board n ≤ (colNames board).length := by
  have hlt := List.idxOf_lt_length_of_mem (nameAt_mem hn)
  rw [headerAt]
  omega

theorem mem_behind {a r : ℕ} (hr : r < 4) : a ∈ behind r ↔ a < 4 ∧ a ≠ r := by
  obtain rfl | rfl | rfl | rfl : r = 0 ∨ r = 1 ∨ r = 2 ∨ r = 3 := by omega
  · simp [behind]; omega
  · simp [behind]; omega
  · simp [behind]; omega
  · simp [behind]; omega

theorem mem_othersAt (hn : base board ≤ n) :
    m ∈ othersAt board n ↔ m ≠ n ∧ base board ≤ m ∧ (m - base board) / 4 = (n - base board) / 4 := by
  rw [othersAt, List.mem_map]
  constructor
  · rintro ⟨a, ha, rfl⟩
    rw [mem_behind (Nat.mod_lt _ (by decide))] at ha
    omega
  · rintro ⟨hne, hm, hdiv⟩
    refine ⟨(m - base board) % 4, (mem_behind (Nat.mod_lt _ (by decide))).mpr ?_, ?_⟩
    · omega
    · omega

end Places

section Stacking

/-- The nodes of the column `d`, up to `n`. -/
def stackOf (board : ℕ → ℕ) (n d : ℕ) : List ℕ :=
  (List.range' (base board) (n - base board)).filter (headerAt board · = d)

theorem mem_stackOf {d : ℕ} : m ∈ stackOf board n d ↔ base board ≤ m ∧ m < n ∧ headerAt board m = d := by
  rw [stackOf, List.mem_filter, List.mem_range'_1, decide_eq_true_eq]
  omega

theorem stackOf_succ (hn : base board ≤ n) (d : ℕ) :
    stackOf board (n + 1) d = stackOf board n d ++ if headerAt board n = d then [n] else [] := by
  have hrange : n + 1 - base board = n - base board + 1 := by omega
  have hlast : base board + (n - base board) = n := by omega
  rw [stackOf, hrange, List.range'_1_concat, hlast, List.filter_append]
  by_cases hd : headerAt board n = d
  · rw [if_pos hd, List.filter_cons_of_pos (by simpa using hd)]
    rfl
  · rw [if_neg hd, List.filter_cons_of_neg (by simpa using hd)]
    rfl

/-- The nodes up to `n` are in their columns. -/
structure Stacked (board : ℕ → ℕ) (n : ℕ) (s : SudokuSolver) : Prop where
  root : s.root = 0
  inout : s.inout = board
  stack : s.stack = []
  cur : s.curNode = n
  base_le : base board ≤ n
  columns : ∀ k, s.columns k = if k ∈ colNames board then some ((colNames board).idxOf k + 1) else none
  headers : LinkRing s.nodes.right s.nodes.left 0 (List.range' 1 (colNames board).length)
  ring : ∀ d, 1 ≤ d → d < base board → LinkRing s.nodes.down s.nodes.up d (stackOf board n d)
  col : ∀ m, base board ≤ m → m < n → s.nodes.col m = headerAt board m
  name : ∀ m, base board ≤ m → m < n → s.nodes.name m = nameAt board m

theorem stacked_of_hasColumns (h : HasColumns board (colNames board) s) : Stacked board (base board) s where
  root := h.root
  inout := h.inout
  stack := h.stack
  cur := h.cur
  base_le := Nat.le_refl _
  columns := h.columns
  headers := h.ring
  ring d hd hlt := by
    have hnone : stackOf board (base board) d = [] := by simp [stackOf]
    rw [hnone]
    exact h.empty d hd (Nat.le_of_lt_succ hlt)
  col m hm hlt := by omega
  name m hm hlt := by omega

theorem Stacked.newRow (h : Stacked board n s) (hn : n < kMaxNodes)
    (hrow : (n - base board) / 4 < (candidates board).length) :
    ∃ t, s.newRow (nameAt board n) = .ok (n, t) ∧ Stacked board (n + 1) t ∧
      t.nodes.right = Function.update s.nodes.right n n ∧ t.nodes.left = Function.update s.nodes.left n n := by
  obtain ⟨hc, hc'⟩ := headerAt_bound hrow
  have hcbase : headerAt board n < base board := Nat.lt_succ_of_le hc'
  have hbase := h.base_le
  have heq : s.newRow (nameAt board n) = .ok (n,
      { s with
        nodes := ((s.nodes.clear n (nameAt board n)).setCol n (headerAt board n)).putUp (headerAt board n) n
        curNode := n + 1 }) := by
    rw [SudokuSolver.newRow, if_pos (colNames_lt (nameAt_mem hrow)), h.columns, if_pos (nameAt_mem hrow)]
    simp only [SudokuSolver.newNode, h.cur, if_pos hn, ok_bind, headerAt]
  -- the new node has no part in the rings so far
  have hclear : ∀ d, 1 ≤ d → d < base board →
      LinkRing (s.nodes.clear n (nameAt board n)).down (s.nodes.clear n (nameAt board n)).up d
        (stackOf board n d) := by
    intro d hd hlt
    refine (h.ring d hd hlt).congr fun a ha => ?_
    have hne : a ≠ n := by
      rcases List.mem_cons.mp ha with rfl | ha
      · omega
      · exact Nat.ne_of_lt (mem_stackOf.mp ha).2.1
    exact ⟨Function.update_of_ne hne .., Function.update_of_ne hne ..⟩
  refine ⟨_, heq, ⟨h.root, h.inout, h.stack, rfl, by omega, h.columns, ?_, fun d hd hlt => ?_, fun m hm hlt => ?_,
    fun m hm hlt => ?_⟩, rfl, rfl⟩
  · refine h.headers.congr fun a ha => ?_
    have hne : a ≠ n := by
      rw [List.mem_cons, List.mem_range'_1] at ha
      rw [base] at hbase
      omega
    exact ⟨Function.update_of_ne hne .., Function.update_of_ne hne ..⟩
  · rw [stackOf_succ hbase]
    by_cases hd' : headerAt board n = d
    · subst hd'
      rw [if_pos rfl]
      refine Nodes.putUp_ring (hclear _ hd hlt) ?_
      rw [List.mem_cons, mem_stackOf]
      omega
    · rw [if_neg hd', List.append_nil]
      refine (hclear d hd hlt).congr fun a ha => Nodes.putUp_of_ne (by omega) ?_ ?_ ?_
      · rcases List.mem_cons.mp ha with rfl | ha
        · omega
        · exact Nat.ne_of_lt (mem_stackOf.mp ha).2.1
      · rintro rfl
        rcases List.mem_cons.mp ha with heq | ha
        · exact hd' heq
        · have := (mem_stackOf.mp ha).1
          omega
      · rintro rfl
        have hmem := (hclear _ hc hcbase).prev_mem
        have hmem' : (s.nodes.clear n (nameAt board n)).up (headerAt board n) ∈ d :: stackOf board n d := ha
        rcases List.mem_cons.mp hmem with hup | hup
        · rw [hup] at hmem'
          rcases List.mem_cons.mp hmem' with heq | ha
          · exact hd' heq
          · have := (mem_stackOf.mp ha).1
            omega
        · rcases List.mem_cons.mp hmem' with heq | ha
          · have := (mem_stackOf.mp hup).1
            omega
          · exact hd' ((mem_stackOf.mp hup).2.2.symm.trans (mem_stackOf.mp ha).2.2)
  · by_cases hlast : m = n
    · subst hlast
      exact Function.update_self ..
    · refine (Function.update_of_ne hlast ..).trans ((Function.update_of_ne hlast ..).trans (h.col m hm (by omega)))
  · by_cases hlast : m = n
    · subst hlast
      exact Function.update_self ..
    · exact (Function.update_of_ne hlast ..).trans (h.name m hm (by omega))

end Stacking

section Rows

/-- The first `k` candidates have their rows. -/
structure HasRows (board : ℕ → ℕ) (k : ℕ) (s : SudokuSolver) : Prop extends Stacked board (base board + 4 * k) s where
  rows : ∀ m, base board ≤ m → m < base board + 4 * k → LinkRing s.nodes.right s.nodes.left m (othersAt board m)

theorem rowAt_eq (hk : (candidates board)[k]? = some x) {r : ℕ} (hr : r < 4) :
    rowAt board (base board + 4 * k + r) = x := by
  have hdiv : (base board + 4 * k + r - base board) / 4 = k := by omega
  rw [rowAt, hdiv, List.getD_eq_getElem?_getD, hk, Option.getD_some]

theorem nameAt_eq (hk : (candidates board)[k]? = some x) {r : ℕ} (hr : r < 4) :
    nameAt board (base board + 4 * k + r) = nodeName x r := by
  have hmod : (base board + 4 * k + r - base board) % 4 = r := by omega
  rw [nameAt, rowAt_eq hk hr, hmod]

theorem othersAt_eq (k : ℕ) {r : ℕ} (hr : r < 4) :
    othersAt board (base board + 4 * k + r) = (behind r).map (base board + 4 * k + ·) := by
  have hmod : (base board + 4 * k + r - base board) % 4 = r := by omega
  have hfirst : base board + 4 * k + r - r = base board + 4 * k := by omega
  rw [othersAt, hmod, hfirst]

/-- `put_left` in a ring that lies behind `a`. -/
theorem Nodes.putLeft_behind {s : Nodes} {old nnew a : ℕ} {l : List ℕ} (h : LinkRing s.right s.left old l)
    (hl : ∀ b ∈ old :: l, a < b) (hnew : nnew ∉ old :: l) (ha : a < nnew) :
    (s.putLeft old nnew).right a = s.right a ∧ (s.putLeft old nnew).left a = s.left a := by
  have hold := hl old List.mem_cons_self
  have hprev := hl _ h.prev_mem
  exact putLeft_of_ne (Ne.symm (List.ne_of_not_mem_cons hnew)) (by omega) (by omega) (by omega)

/-- The last line for a candidate. -/
def joined (s : Nodes) (f : ℕ) : Nodes := ((s.putLeft f (f + 1)).putLeft f (f + 2)).putLeft f (f + 3)

/-- Four new nodes become a ring of their own. -/
theorem joined_ring {s : Nodes} {f : ℕ} (h : s.right f = f ∧ s.left f = f) :
    LinkRing (joined s f).right (joined s f).left f [f + 1, f + 2, f + 3] ∧
      ∀ a < f, (joined s f).right a = s.right a ∧ (joined s f).left a = s.left a := by
  have h0 : LinkRing s.right s.left f [] := linkRing_nil.mpr h
  have h1 : LinkRing (s.putLeft f (f + 1)).right (s.putLeft f (f + 1)).left f [f + 1] :=
    Nodes.putLeft_ring h0 (by simp)
  have h2 := Nodes.putLeft_ring h1 (show f + 2 ∉ [f, f + 1] by simp)
  have h3 := Nodes.putLeft_ring h2 (show f + 3 ∉ [f, f + 1, f + 2] by simp)
  refine ⟨h3, fun a ha => ?_⟩
  have hb1 := Nodes.putLeft_behind h0 (by simpa using ha) (show f + 1 ∉ [f] by simp) (Nat.lt_add_right 1 ha)
  have hb2 := Nodes.putLeft_behind h1 (by simp; omega) (show f + 2 ∉ [f, f + 1] by simp) (Nat.lt_add_right 2 ha)
  have hb3 := Nodes.putLeft_behind h2 (by simp; omega) (show f + 3 ∉ [f, f + 1, f + 2] by simp)
    (Nat.lt_add_right 3 ha)
  exact ⟨hb3.1.trans (hb2.1.trans hb1.1), hb3.2.trans (hb2.2.trans hb1.2)⟩

/-- Each of the four has the other three behind it. -/
theorem four_rings {s : Nodes} (h : LinkRing s.right s.left (base board + 4 * k)
      [base board + 4 * k + 1, base board + 4 * k + 2, base board + 4 * k + 3]) {r : ℕ} (hr : r < 4) :
    LinkRing s.right s.left (base board + 4 * k + r) (othersAt board (base board + 4 * k + r)) := by
  rw [othersAt_eq k hr]
  have h1 := h.rotate
  have h2 := h1.rotate
  have h3 := h2.rotate
  obtain rfl | rfl | rfl | rfl : r = 0 ∨ r = 1 ∨ r = 2 ∨ r = 3 := by omega
  · exact h
  · exact h1
  · exact h2
  · exact h3

/-- Links of which four are set to themselves, from `f` on. -/
theorem update_four (g : ℕ → ℕ) (f : ℕ) {g' : ℕ → ℕ}
    (hg : g' = Function.update (Function.update (Function.update (Function.update g f f) (f + 1) (f + 1)) (f + 2)
      (f + 2)) (f + 3) (f + 3)) : g' f = f ∧ ∀ a < f, g' a = g a := by
  subst hg
  refine ⟨?_, fun a ha => ?_⟩
  · rw [Function.update_of_ne (by omega), Function.update_of_ne (by omega), Function.update_of_ne (by omega),
      Function.update_self]
  · rw [Function.update_of_ne (by omega), Function.update_of_ne (by omega), Function.update_of_ne (by omega),
      Function.update_of_ne (by omega)]

/-- Four new nodes one behind the other; only their own links to the sides are other than before. -/
theorem Stacked.newRows {f : ℕ} (h : Stacked board f s) (hmax : f + 3 < kMaxNodes)
    (hrow : ∀ r < 4, (f + r - base board) / 4 < (candidates board).length) :
    ∃ t0 t1 t2 t3, s.newRow (nameAt board f) = .ok (f, t0) ∧ t0.newRow (nameAt board (f + 1)) = .ok (f + 1, t1) ∧
      t1.newRow (nameAt board (f + 2)) = .ok (f + 2, t2) ∧ t2.newRow (nameAt board (f + 3)) = .ok (f + 3, t3) ∧
      Stacked board (f + 4) t3 ∧ (t3.nodes.right f = f ∧ t3.nodes.left f = f) ∧
      ∀ a < f, t3.nodes.right a = s.nodes.right a ∧ t3.nodes.left a = s.nodes.left a := by
  obtain ⟨t0, ht0, h0, hr0, hl0⟩ := h.newRow (by omega) (hrow 0 (by decide))
  obtain ⟨t1, ht1, h1, hr1, hl1⟩ := h0.newRow (by omega) (hrow 1 (by decide))
  obtain ⟨t2, ht2, h2, hr2, hl2⟩ := h1.newRow (by omega) (hrow 2 (by decide))
  obtain ⟨t3, ht3, h3, hr3, hl3⟩ := h2.newRow (by omega) (hrow 3 (by decide))
  rw [hr2, hr1, hr0] at hr3
  rw [hl2, hl1, hl0] at hl3
  obtain ⟨hright, hright'⟩ := update_four s.nodes.right f hr3
  obtain ⟨hleft, hleft'⟩ := update_four s.nodes.left f hl3
  exact ⟨t0, t1, t2, t3, ht0, ht1, ht2, ht3, h3, ⟨hright, hleft⟩, fun a ha => ⟨hright' a ha, hleft' a ha⟩⟩

/-- Joining the last four nodes to a ring leaves the columns as they are. -/
theorem Stacked.join {f : ℕ} (h : Stacked board n s) (hf : base board ≤ f)
    (hbefore : ∀ a < f, (joined s.nodes f).right a = s.nodes.right a ∧ (joined s.nodes f).left a = s.nodes.left a) :
    Stacked board n { s with nodes := joined s.nodes f } := by
  refine ⟨h.root, h.inout, h.stack, h.cur, h.base_le, h.columns, h.headers.congr fun a ha => hbefore a ?_, h.ring,
    h.col, h.name⟩
  rw [List.mem_cons, List.mem_range'_1] at ha
  rw [base] at hf
  omega

theorem HasRows.appendRow (h : HasRows board k s) (hk : (candidates board)[k]? = some x) :
    ∃ t, SudokuSolver.appendRow (marks board) s x = .ok t ∧ HasRows board (k + 1) t := by
  obtain ⟨hklen, -⟩ := List.getElem?_eq_some_iff.mp hk
  have hmax : base board + 4 * k + 3 < kMaxNodes := by
    have hcols := length_colNames board
    have hcands := length_candidates board
    rw [base, kMaxNodes]
    omega
  have hdiv : ∀ r < 4, (base board + 4 * k + r - base board) / 4 < (candidates board).length := fun r hr => by omega
  obtain ⟨t0, t1, t2, t3, ht0, ht1, ht2, ht3, hstacked, hself, hsides⟩ := h.toStacked.newRows hmax hdiv
  have hname0 : nameAt board (base board + 4 * k + 0) = x.1 := nameAt_eq hk (by decide)
  have hname1 : nameAt board (base board + 4 * k + 1) = getRowCol (rowOf x.1) x.2 := nameAt_eq hk (by decide)
  have hname2 : nameAt board (base board + 4 * k + 2) = getColCol (colOf x.1) x.2 := nameAt_eq hk (by decide)
  have hname3 : nameAt board (base board + 4 * k + 3) = getBoxCol (boxOf x.1) x.2 := nameAt_eq hk (by decide)
  rw [Nat.add_zero] at hname0
  rw [hname0] at ht0
  rw [hname1] at ht1
  rw [hname2] at ht2
  rw [hname3] at ht3
  obtain ⟨-, hempty, hrows, hcols, hboxes⟩ := mem_candidates.mp (List.mem_of_getElem? hk)
  have heq : SudokuSolver.appendRow (marks board) s x =
      .ok { t3 with nodes := joined t3.nodes (base board + 4 * k) } := by
    obtain ⟨i, v⟩ := x
    rw [SudokuSolver.appendRow, h.inout, if_pos hempty]
    simp only [hrows, hcols, hboxes, Bool.or_false, Bool.false_eq_true, if_false, ht0, ht1, ht2, ht3, ok_bind, joined]
  obtain ⟨hring, hbefore⟩ := joined_ring hself
  have hnext : base board + 4 * k + 4 = base board + 4 * (k + 1) := by omega
  refine ⟨_, heq, ⟨hnext ▸ hstacked.join (Nat.le_add_right ..) hbefore, fun m hm hlt => ?_⟩⟩
  by_cases hold : m < base board + 4 * k
  · refine (h.rows m hm hold).congr fun a ha => ?_
    have halt : a < base board + 4 * k := by
      rcases List.mem_cons.mp ha with rfl | ha
      · exact hold
      · have := (mem_othersAt hm).mp ha
        omega
    exact ⟨(hbefore a halt).1.trans (hsides a halt).1, (hbefore a halt).2.trans (hsides a halt).2⟩
  · obtain ⟨r, hr, rfl⟩ : ∃ r, r < 4 ∧ m = base board + 4 * k + r := ⟨m - (base board + 4 * k), by omega, by omega⟩
    exact four_rings hring hr

theorem HasRows.appendRows {done l : List (ℕ × ℕ)} (h : HasRows board done.length s)
    (hl : candidates board = done ++ l.filter (isCandidate board)) :
    ∃ t, runAll (SudokuSolver.appendRow (marks board)) s l = .ok t ∧
      HasRows board (candidates board).length t := by
  induction l generalizing done s with
  | nil =>
    rw [List.filter_nil, List.append_nil] at hl
    exact ⟨s, rfl, hl ▸ h⟩
  | cons x l ih =>
    by_cases hx : isCandidate board x = true
    · rw [List.filter_cons_of_pos hx] at hl
      have hk : (candidates board)[done.length]? = some x := by
        rw [hl]
        simp
      obtain ⟨t, ht, h'⟩ := h.appendRow hk
      have hlen : (done ++ [x]).length = done.length + 1 := by simp
      have hrest : candidates board = (done ++ [x]) ++ l.filter (isCandidate board) := by rw [hl]; simp
      obtain ⟨u, hu, h''⟩ := ih (hlen.symm ▸ h') hrest
      exact ⟨u, by rw [runAll_cons ht, hu], h''⟩
    · rw [List.filter_cons_of_neg hx] at hl
      have hskip : SudokuSolver.appendRow (marks board) s x = .ok s := by
        obtain ⟨i, v⟩ := x
        rw [SudokuSolver.appendRow, h.inout]
        split_ifs with hempty hmarked
        · rfl
        · exact absurd (by simpa [isCandidate, hempty] using hmarked) hx
        · rfl
      obtain ⟨u, hu, h''⟩ := ih h hl
      exact ⟨u, by rw [runAll_cons hskip, hu], h''⟩

end Rows

end CppBase.Muduo.Sudoku
