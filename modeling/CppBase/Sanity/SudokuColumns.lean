import CppBase.Spec.Sudoku
import Mathlib.Data.List.Flatten
import Mathlib.Data.List.Nodup
import Mathlib.Data.List.Range

/-! The columns that the constructor of the solver makes: one for each empty cell, and one for each
value that a row, a column or a box has not got. -/

namespace CppBase.Muduo.Sudoku

open CppBase.Lib

variable {board : ℕ → ℕ} {s : SudokuSolver} {names : List ℕ} {n : ℕ}

section Marks

open SudokuSolver

/-- One of the three tables: where the cells `l` have been marked. -/
theorem foldl_update_iff (part : ℕ → ℕ) (l : List ℕ) (f : ℕ → ℕ → Bool) (r v : ℕ) :
    l.foldl (fun f i => Function.update f (part i) (Function.update (f (part i)) (board i) true)) f r v = true ↔
      f r v = true ∨ ∃ i ∈ l, part i = r ∧ board i = v := by
  induction l generalizing f with
  | nil => simp
  | cons i l ih =>
    have hone : Function.update f (part i) (Function.update (f (part i)) (board i) true) r v = true ↔
        f r v = true ∨ part i = r ∧ board i = v := by
      by_cases hr : r = part i
      · subst hr
        by_cases hv : v = board i
        · subst hv
          simp
        · rw [Function.update_self, Function.update_of_ne hv]
          simp [Ne.symm hv]
      · rw [Function.update_of_ne hr]
        simp [Ne.symm hr]
    rw [List.foldl_cons, ih, hone]
    simp [or_assoc]

theorem foldl_mark (l : List ℕ) (m : Marks) :
    l.foldl (Marks.mark board) m =
      ⟨l.foldl (fun f i => Function.update f (rowOf i) (Function.update (f (rowOf i)) (board i) true)) m.rows,
        l.foldl (fun f i => Function.update f (colOf i) (Function.update (f (colOf i)) (board i) true)) m.cols,
        l.foldl (fun f i => Function.update f (boxOf i) (Function.update (f (boxOf i)) (board i) true)) m.boxes⟩ := by
  induction l generalizing m with
  | nil => rfl
  | cons i l ih => exact ih _

theorem marks_rows (r v : ℕ) : (marks board).rows r v = true ↔ ∃ i < kCells, rowOf i = r ∧ board i = v := by
  rw [marks, foldl_mark, foldl_update_iff]
  simp

theorem marks_cols (r v : ℕ) : (marks board).cols r v = true ↔ ∃ i < kCells, colOf i = r ∧ board i = v := by
  rw [marks, foldl_mark, foldl_update_iff]
  simp

theorem marks_boxes (r v : ℕ) : (marks board).boxes r v = true ↔ ∃ i < kCells, boxOf i = r ∧ board i = v := by
  rw [marks, foldl_mark, foldl_update_iff]
  simp

end Marks

section Links

namespace Nodes

variable {s : Nodes} {old nnew : ℕ} {l : List ℕ}

theorem putLeft_right (h : old ≠ nnew) :
    (s.putLeft old nnew).right = Function.update (Function.update s.right nnew old) (s.left old) nnew := by
  simp only [putLeft, Function.update_of_ne h]

theorem putUp_down (h : old ≠ nnew) :
    (s.putUp old nnew).down = Function.update (Function.update s.down nnew old) (s.up old) nnew := by
  simp only [putUp, Function.update_of_ne h]

theorem putLeft_ring (h : LinkRing s.right s.left old l) (hnew : nnew ∉ old :: l) :
    LinkRing (s.putLeft old nnew).right (s.putLeft old nnew).left old (l ++ [nnew]) := by
  rw [putLeft_right (Ne.symm (List.ne_of_not_mem_cons hnew))]
  exact h.insert_last hnew

theorem putUp_ring (h : LinkRing s.down s.up old l) (hnew : nnew ∉ old :: l) :
    LinkRing (s.putUp old nnew).down (s.putUp old nnew).up old (l ++ [nnew]) := by
  rw [putUp_down (Ne.symm (List.ne_of_not_mem_cons hnew))]
  exact h.insert_last hnew

/-- Only the new node and its neighbours get other links. -/
theorem putLeft_of_ne {a : ℕ} (h : old ≠ nnew) (ha : a ≠ nnew) (hold : a ≠ old) (hlast : a ≠ s.left old) :
    (s.putLeft old nnew).right a = s.right a ∧ (s.putLeft old nnew).left a = s.left a := by
  rw [putLeft_right h]
  refine ⟨?_, ?_⟩
  · rw [Function.update_of_ne hlast, Function.update_of_ne ha]
  · exact (Function.update_of_ne hold ..).trans (Function.update_of_ne ha ..)

theorem putUp_of_ne {a : ℕ} (h : old ≠ nnew) (ha : a ≠ nnew) (hold : a ≠ old) (hlast : a ≠ s.up old) :
    (s.putUp old nnew).down a = s.down a ∧ (s.putUp old nnew).up a = s.up a := by
  rw [putUp_down h]
  refine ⟨?_, ?_⟩
  · rw [Function.update_of_ne hlast, Function.update_of_ne ha]
  · exact (Function.update_of_ne hold ..).trans (Function.update_of_ne ha ..)

end Nodes

end Links

section Columns

/-- Columns for `names` have been made, in this order. -/
structure HasColumns (board : ℕ → ℕ) (names : List ℕ) (s : SudokuSolver) : Prop where
  root : s.root = 0
  inout : s.inout = board
  stack : s.stack = []
  nodup : names.Nodup
  cur : s.curNode = names.length + 1
  columns : ∀ n, s.columns n = if n ∈ names then some (names.idxOf n + 1) else none
  ring : LinkRing s.nodes.right s.nodes.left 0 (List.range' 1 names.length)
  empty : ∀ d, 1 ≤ d → d ≤ names.length → LinkRing s.nodes.down s.nodes.up d []

theorem HasColumns.appendColumn (h : HasColumns board names s) (hn : n ∉ names) (hbound : n < kMaxColumns)
    (hlen : names.length + 1 < kMaxNodes) :
    ∃ t, s.appendColumn n = .ok t ∧ HasColumns board (names ++ [n]) t := by
  have hcur : s.curNode < kMaxNodes := h.cur ▸ hlen
  have hcol : s.columns n = none := (h.columns n).trans (if_neg hn)
  have heq : s.appendColumn n = .ok
      { s with
        nodes := ((s.nodes.clear s.curNode n).setCol s.curNode s.curNode).putLeft s.root s.curNode
        columns := Function.update s.columns n (some s.curNode)
        curNode := s.curNode + 1 } := by
    rw [SudokuSolver.appendColumn, if_pos hbound, hcol]
    simp only [SudokuSolver.newColumn, SudokuSolver.newNode, if_pos hcur, ok_bind]
  refine ⟨_, heq, ⟨h.root, h.inout, h.stack, ?_, ?_, fun m => ?_, ?_, fun d hd hdlen => ?_⟩⟩
  · rw [List.nodup_append]
    refine ⟨h.nodup, List.nodup_singleton n, fun a ha b hb hab => hn ?_⟩
    rw [← List.mem_singleton.mp hb, ← hab]
    exact ha
  · rw [List.length_append, List.length_singleton, h.cur]
  · dsimp only
    by_cases hm : m = n
    · subst hm
      rw [Function.update_self, if_pos (by simp), List.idxOf_append_of_notMem hn, h.cur]
      simp
    · rw [Function.update_of_ne hm, h.columns m]
      by_cases hmem : m ∈ names
      · rw [if_pos hmem, if_pos (List.mem_append_left _ hmem), List.idxOf_append_of_mem hmem]
      · rw [if_neg hmem, if_neg]
        simp [hmem, hm]
  · rw [h.root, List.length_append, List.length_singleton, List.range'_1_concat, Nat.add_comm 1, ← h.cur]
    refine Nodes.putLeft_ring (h.ring.congr fun a ha => ?_) ?_
    · have hne : a ≠ s.curNode := by
        rw [h.cur]
        rintro rfl
        rw [List.mem_cons, List.mem_range'_1] at ha
        omega
      exact ⟨Function.update_of_ne hne .., Function.update_of_ne hne ..⟩
    · rw [h.cur, List.mem_cons, List.mem_range'_1]
      omega
  · rw [List.length_append, List.length_singleton] at hdlen
    rw [linkRing_nil]
    by_cases hlast : d = s.curNode
    · subst hlast
      exact ⟨Function.update_self .., Function.update_self ..⟩
    · have hold := linkRing_nil.mp (h.empty d hd (by rw [h.cur] at hlast; omega))
      exact ⟨(Function.update_of_ne hlast ..).trans hold.1, (Function.update_of_ne hlast ..).trans hold.2⟩

theorem HasColumns.appendAll (h : HasColumns board names s) {ns : List ℕ} (hnodup : (names ++ ns).Nodup)
    (hbound : ∀ n ∈ ns, n < kMaxColumns) (hlen : (names ++ ns).length < kMaxNodes) :
    ∃ t, runAll SudokuSolver.appendColumn s ns = .ok t ∧ HasColumns board (names ++ ns) t := by
  induction ns generalizing s names with
  | nil => exact ⟨s, rfl, by rwa [List.append_nil]⟩
  | cons n ns ih =>
    rw [List.append_cons] at hnodup hlen ⊢
    have hn : n ∉ names := by
      have hfirst := hnodup.of_append_left
      rw [List.nodup_append] at hfirst
      exact fun hmem => hfirst.2.2 n hmem n (List.mem_singleton_self n) rfl
    obtain ⟨hbound, hbounds⟩ := List.forall_mem_cons.mp hbound
    have hfits : names.length + 1 < kMaxNodes := by
      simp only [List.length_append, List.length_singleton] at hlen
      omega
    obtain ⟨t, ht, h'⟩ := h.appendColumn hn hbound hfits
    obtain ⟨u, hu, h''⟩ := ih h' hnodup hbounds hlen
    exact ⟨u, by rw [runAll_cons ht, hu], h''⟩

/-- A loop each of whose rounds appends some columns. -/
theorem HasColumns.appendEach {α : Type} {round : SudokuSolver → α → Except Fault SudokuSolver} {f : α → List ℕ}
    (hround : ∀ t x, t.inout = board → round t x = runAll SudokuSolver.appendColumn t (f x))
    (h : HasColumns board names s) {l : List α} (hnodup : (names ++ l.flatMap f).Nodup)
    (hbound : ∀ n ∈ l.flatMap f, n < kMaxColumns) (hlen : (names ++ l.flatMap f).length < kMaxNodes) :
    ∃ t, runAll round s l = .ok t ∧ HasColumns board (names ++ l.flatMap f) t := by
  induction l generalizing s names with
  | nil => exact ⟨s, rfl, by rwa [List.flatMap_nil, List.append_nil]⟩
  | cons x l ih =>
    rw [List.flatMap_cons, ← List.append_assoc] at hnodup hlen ⊢
    have hlen' : (names ++ f x).length < kMaxNodes := by
      rw [List.length_append] at hlen
      omega
    rw [List.flatMap_cons, List.forall_mem_append] at hbound
    obtain ⟨t, ht, h'⟩ := h.appendAll hnodup.of_append_left hbound.1 hlen'
    obtain ⟨u, hu, h''⟩ := ih h' hnodup hbound.2 hlen
    exact ⟨u, by rw [runAll_cons ((hround s x h.inout).trans ht), hu], h''⟩

end Columns

section Names

open SudokuSolver

def cellNames (board : ℕ → ℕ) (i : ℕ) : List ℕ := if board i = 0 then [i] else []

def valueNames (m : Marks) (x : ℕ × ℕ) : List ℕ :=
  (if m.rows x.1 x.2 then [] else [getRowCol x.1 x.2]) ++ ((if m.cols x.1 x.2 then [] else [getColCol x.1 x.2]) ++
    if m.boxes x.1 x.2 then [] else [getBoxCol x.1 x.2])

def colNames (board : ℕ → ℕ) : List ℕ :=
  (List.range kCells).flatMap (cellNames board) ++ (withValues 9).flatMap (valueNames (marks board))

theorem appendCell_eq (hs : s.inout = board) (i : ℕ) :
    s.appendCell i = runAll appendColumn s (cellNames board i) := by
  rw [appendCell, cellNames, hs]
  split_ifs
  · exact runAll_singleton.symm
  · rfl

theorem appendValue_eq (m : Marks) (s : SudokuSolver) (x : ℕ × ℕ) :
    appendValue m s x = runAll appendColumn s (valueNames m x) := by
  have hone : ∀ (b : Bool) (t : SudokuSolver) (k : ℕ),
      runAll appendColumn t (if b then [] else [k]) = if b then .ok t else t.appendColumn k := by
    intro b t k
    cases b
    · exact runAll_singleton
    · rfl
  obtain ⟨i, v⟩ := x
  rw [valueNames, runAll_append_bind, hone]
  simp only [runAll_append_bind, hone, appendValue]
  cases m.rows i v <;> cases m.cols i v <;> cases m.boxes i v <;> rfl

theorem mem_withValues {k : ℕ} {x : ℕ × ℕ} : x ∈ withValues k ↔ x.1 < k ∧ 1 ≤ x.2 ∧ x.2 ≤ 9 := by
  rw [withValues, List.mem_flatMap]
  constructor
  · rintro ⟨i, hi, hx⟩
    obtain ⟨v, hv, rfl⟩ := List.mem_map.mp hx
    rw [List.mem_range'_1] at hv
    exact ⟨List.mem_range.mp hi, by omega, by omega⟩
  · rintro ⟨hi, hv, hv'⟩
    exact ⟨x.1, List.mem_range.mpr hi, List.mem_map.mpr ⟨x.2, List.mem_range'_1.mpr ⟨hv, by omega⟩, rfl⟩⟩

theorem withValues_nodup (k : ℕ) : (withValues k).Nodup := by
  rw [withValues, List.nodup_flatMap]
  refine ⟨fun i _ => List.Nodup.map (fun v w h => (Prod.mk.inj h).2) List.nodup_range', ?_⟩
  refine List.nodup_range.imp fun {i j} hne => ?_
  intro x hx hx'
  obtain ⟨v, -, rfl⟩ := List.mem_map.mp hx
  obtain ⟨w, -, heq⟩ := List.mem_map.mp hx'
  exact hne (Prod.mk.inj heq).1.symm

def allNames : List ℕ :=
  List.range kCells ++ (withValues 9).flatMap fun x => [getRowCol x.1 x.2, getColCol x.1 x.2, getBoxCol x.1 x.2]

theorem allNames_nodup : allNames.Nodup := by
  have hvalues :
      ((withValues 9).flatMap fun x => [getRowCol x.1 x.2, getColCol x.1 x.2, getBoxCol x.1 x.2]).Nodup := by
    rw [List.nodup_flatMap]
    refine ⟨fun x hx => ?_, (withValues_nodup 9).imp_of_mem fun {x y} hx hy hne => ?_⟩
    · rw [mem_withValues] at hx
      simp only [getRowCol, getColCol, getBoxCol, kRow, kCol, kBox, List.nodup_cons, List.mem_cons, List.not_mem_nil,
        or_false, not_or, not_false_eq_true, List.nodup_nil, and_true]
      omega
    · rw [mem_withValues] at hx hy
      intro k hk hk'
      simp only [getRowCol, getColCol, getBoxCol, kRow, kCol, kBox, List.mem_cons, List.not_mem_nil,
        or_false] at hk hk'
      exact hne (Prod.ext (by omega) (by omega))
  rw [allNames, List.nodup_append]
  refine ⟨List.nodup_range, hvalues, fun a ha b hb hab => ?_⟩
  obtain ⟨x, -, hx⟩ := List.mem_flatMap.mp hb
  simp only [getRowCol, getColCol, getBoxCol, kRow, kCol, kBox, List.mem_cons, List.not_mem_nil, or_false] at hx
  rw [List.mem_range, kCells] at ha
  omega

theorem colNames_sublist (board : ℕ → ℕ) : (colNames board).Sublist allNames := by
  have hif : ∀ (b : Bool) (k : ℕ), (if b then [] else [k] : List ℕ).Sublist [k] := by
    intro b k
    cases b <;> simp
  refine List.Sublist.append ?_ (List.Sublist.flatMap_right _ fun x _ => ?_)
  · have hrange : (List.range kCells).flatMap (fun i => [i]) = List.range kCells := by simp
    rw [← hrange]
    refine List.Sublist.flatMap_right _ fun i _ => ?_
    rw [cellNames]
    split_ifs <;> simp
  · exact (hif _ _).append ((hif _ _).append (hif _ _))

theorem colNames_lt {k : ℕ} (hk : k ∈ colNames board) : k < kMaxColumns := by
  rw [kMaxColumns]
  rcases List.mem_append.mp ((colNames_sublist board).subset hk) with hk | hk
  · rw [List.mem_range, kCells] at hk
    omega
  · obtain ⟨x, hx, hk⟩ := List.mem_flatMap.mp hk
    rw [mem_withValues] at hx
    simp only [getRowCol, getColCol, getBoxCol, kRow, kCol, kBox, List.mem_cons, List.not_mem_nil, or_false] at hk
    omega

theorem length_withValues (k : ℕ) : (withValues k).length = 9 * k := by
  simp [withValues, List.length_flatMap, Nat.mul_comm]

theorem length_colNames (board : ℕ → ℕ) : (colNames board).length ≤ 324 := by
  have hall : allNames.length = 324 := by
    simp [allNames, List.length_flatMap, length_withValues, kCells]
  exact hall ▸ (colNames_sublist board).length_le

end Names

end CppBase.Muduo.Sudoku
