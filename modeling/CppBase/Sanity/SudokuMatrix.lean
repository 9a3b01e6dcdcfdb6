import CppBase.Sanity.SudokuRows

/-! The matrix that the constructor of the solver makes of a board. -/

namespace CppBase.Muduo.Sudoku

open CppBase.Lib SudokuSolver

variable {board : ℕ → ℕ} {s : SudokuSolver} {n m k : ℕ} {x : ℕ × ℕ}

section Construction

def rooted (board : ℕ → ℕ) : SudokuSolver where
  root := 0
  inout := board
  columns := fun _ => none
  stack := []
  nodes :=
    (Nodes.clear ⟨fun _ => 0, fun _ => 0, fun _ => 0, fun _ => 0, fun _ => 0, fun _ => 0, fun _ => 0⟩ 0 0).setCol 0 0
  curNode := 1

theorem create_eq (hboard : ∀ i < kCells, board i < 10) :
    create board = runAll appendCell (rooted board) (List.range kCells) >>= fun s =>
      runAll (appendValue (marks board)) s (withValues 9) >>= fun s =>
        runAll (appendRow (marks board)) s (withValues kCells) := by
  rw [create, if_pos hboard]
  rfl

theorem rooted_hasColumns (board : ℕ → ℕ) : HasColumns board [] (rooted board) where
  root := rfl
  inout := rfl
  stack := rfl
  nodup := List.nodup_nil
  cur := rfl
  columns k := by simp [rooted]
  ring := linkRing_nil.mpr ⟨rfl, rfl⟩
  empty d hd hlen := by simp at hlen; omega

/-- The constructor makes all columns and all rows, and no assertion in it fails. -/
theorem create_hasRows (hboard : ∀ i < kCells, board i < 10) :
    ∃ t, create board = .ok t ∧ HasRows board (candidates board).length t := by
  have hnodup := allNames_nodup.sublist (colNames_sublist board)
  have hlen : (colNames board).length < kMaxNodes := by
    have := length_colNames board
    rw [kMaxNodes]
    omega
  have hcells : [] ++ (List.range kCells).flatMap (cellNames board) <+: colNames board := List.prefix_append ..
  obtain ⟨s1, hs1, h1⟩ := (rooted_hasColumns board).appendEach (fun t i ht => appendCell_eq ht i)
    (hnodup.sublist hcells.sublist) (fun n hn => colNames_lt (hcells.subset hn))
    (Nat.lt_of_le_of_lt hcells.length_le hlen)
  obtain ⟨s2, hs2, h2⟩ := h1.appendEach (fun t y _ => appendValue_eq (marks board) t y) hnodup
    (fun n hn => colNames_lt (List.mem_append_right _ hn)) hlen
  have hnone : HasRows board ([] : List (ℕ × ℕ)).length s2 := ⟨stacked_of_hasColumns h2, fun m hm hlt => by
    rw [List.length_nil] at hlt
    omega⟩
  have hall : candidates board = [] ++ (withValues kCells).filter (isCandidate board) := rfl
  obtain ⟨t, ht, h⟩ := hnone.appendRows hall
  exact ⟨t, by rw [create_eq hboard, hs1, ok_bind, hs2, ok_bind, ht], h⟩

end Construction

section Places

/-- The rows, columns and boxes, as the nodes of a row have them behind the first. -/
def partOf : ℕ → ℕ → ℕ
  | 1 => rowOf
  | 2 => colOf
  | _ => boxOf

theorem partOf_lt {r i : ℕ} (hi : i < kCells) : partOf r i < 9 := by
  rw [kCells] at hi
  unfold partOf
  split
  · rw [rowOf]; omega
  · rw [colOf]; omega
  · rw [boxOf, rowOf, colOf]; omega

theorem nodeName_part {r : ℕ} (hr : 1 ≤ r) (hr' : r < 4) : nodeName x r = 100 * r + partOf r x.1 * 10 + x.2 := by
  obtain rfl | rfl | rfl : r = 1 ∨ r = 2 ∨ r = 3 := by omega
  · rfl
  · rfl
  · rfl

/-- The four names of a row tell its four nodes apart. -/
theorem nodeName_inj (hx : x ∈ candidates board) {r q : ℕ} (hr : r < 4) (hq : q < 4)
    (h : nodeName x r = nodeName x q) : r = q := by
  obtain ⟨⟨hi, hv, hv'⟩, -⟩ := mem_candidates.mp hx
  have hr9 := partOf_lt (r := r) hi
  have hq9 := partOf_lt (r := q) hi
  have h0 : nodeName x 0 = x.1 := rfl
  rw [kCells] at hi
  rcases Nat.eq_zero_or_pos r with rfl | hr0
  · rcases Nat.eq_zero_or_pos q with rfl | hq0
    · rfl
    · rw [h0, nodeName_part hq0 hq] at h
      omega
  · rcases Nat.eq_zero_or_pos q with rfl | hq0
    · rw [h0, nodeName_part hr0 hr] at h
      omega
    · rw [nodeName_part hr0 hr, nodeName_part hq0 hq] at h
      omega

def rowNodes (board : ℕ → ℕ) : Set ℕ := {n | base board ≤ n ∧ n < base board + 4 * (candidates board).length}

theorem index_lt (hn : n ∈ rowNodes board) : (n - base board) / 4 < (candidates board).length := by
  obtain ⟨hge, hlt⟩ := hn
  omega

theorem row_mem (hn : n ∈ rowNodes board) : rowAt board n ∈ candidates board := rowAt_mem (index_lt hn)

theorem rowAt_inj (hm : m ∈ rowNodes board) (hn : n ∈ rowNodes board) :
    rowAt board m = rowAt board n ↔ (m - base board) / 4 = (n - base board) / 4 := by
  refine ⟨fun h => ?_, fun h => by rw [rowAt, rowAt, h]⟩
  rw [rowAt, rowAt, List.getD_eq_getElem _ _ (index_lt hm), List.getD_eq_getElem _ _ (index_lt hn)] at h
  exact (candidates_nodup board).getElem_inj_iff.mp h

theorem headerAt_inj (hm : m ∈ rowNodes board) (hn : n ∈ rowNodes board) (hrow : rowAt board m = rowAt board n)
    (hheader : headerAt board m = headerAt board n) : m = n := by
  have hname : nameAt board m = nameAt board n := by
    rw [headerAt, headerAt, Nat.add_right_cancel_iff] at hheader
    exact (List.idxOf_inj (nameAt_mem (index_lt hm))).mp hheader
  rw [nameAt, nameAt, hrow] at hname
  have hmod := nodeName_inj (row_mem hn) (Nat.mod_lt _ (by decide)) (Nat.mod_lt _ (by decide)) hname
  have hdiv := (rowAt_inj hm hn).mp hrow
  obtain ⟨hm, -⟩ := hm
  obtain ⟨hn, -⟩ := hn
  omega

theorem base_le (board : ℕ → ℕ) : 1 ≤ base board ∧ base board + 4 * (candidates board).length ≤ kMaxNodes := by
  have hcols := length_colNames board
  have hcands := length_candidates board
  rw [base, kMaxNodes]
  omega

def layout (board : ℕ → ℕ) : Layout (ℕ × ℕ) where
  root := 0
  cols := {d | 1 ≤ d ∧ d < base board}
  nodes := rowNodes board
  header := headerAt board
  row := rowAt board
  others := othersAt board
  root_notMem := ⟨fun h => absurd h.1 (by decide), fun h => by have := h.1; have := base_le board; omega⟩
  not_col n hn hc := absurd hc.2 (Nat.not_lt.mpr hn.1)
  header_mem n hn := (headerAt_bound (index_lt hn)).imp_right Nat.lt_succ_of_le
  header_inj m hm n hn := headerAt_inj hm hn
  mem_others n hn m := by
    rw [mem_othersAt hn.1]
    constructor
    · rintro ⟨hne, hge, hdiv⟩
      have hm : m ∈ rowNodes board := ⟨hge, by have := index_lt hn; omega⟩
      exact ⟨hne, hm, (rowAt_inj hm hn).mpr hdiv⟩
    · rintro ⟨hne, hm, hrow⟩
      exact ⟨hne, hm.1, (rowAt_inj hm hn).mp hrow⟩
  bound n hn := Nat.lt_of_lt_of_le hn.2 (base_le board).2
  col_bound d hd := by have := (base_le board).2; have := hd.2; omega

end Places

section Matrix

variable (h : HasRows board (candidates board).length s)

include h

theorem HasRows.shows :
    Shows (layout board) (List.range' 1 (colNames board).length) {x | x ∈ candidates board}
      (stackOf board (base board + 4 * (candidates board).length)) s.nodes where
  col n hn := h.col n hn.1 hn.2
  rows n hn := h.rows n hn.1 hn.2
  ring d hd := h.ring d hd.1 hd.2
  mem d _ n hn := by
    obtain ⟨hge, hlt, hheader⟩ := mem_stackOf.mp hn
    exact ⟨⟨hge, hlt⟩, hheader⟩
  headers := h.headers
  cols d hd := by
    rw [List.mem_range'_1] at hd
    exact ⟨hd.1, by rw [base]; omega⟩
  active n hn _ := ⟨fun _ => row_mem hn, fun _ => mem_stackOf.mpr ⟨hn.1, hn.2, rfl⟩⟩
  closed n hn _ := by
    obtain ⟨hge, hle⟩ := headerAt_bound (index_lt hn)
    exact List.mem_range'_1.mpr ⟨hge, show headerAt board n < 1 + (colNames board).length by omega⟩

theorem HasRows.named : Named (layout board) s.nodes.name := by
  have hname : ∀ n ∈ rowNodes board, s.nodes.name n = nameAt board n := fun n hn => h.name n hn.1 hn.2
  have hcell : ∀ n ∈ rowNodes board, (rowAt board n).1 < 81 ∧ (rowAt board n).2 ≤ 9 := fun n hn =>
    ⟨(mem_candidates.mp (row_mem hn)).1.1, (mem_candidates.mp (row_mem hn)).1.2.2⟩
  -- the name of a node is that of the cell exactly for the first of the four
  have hfirst : ∀ n ∈ rowNodes board, (n - base board) % 4 = 0 → nameAt board n = (rowAt board n).1 := by
    intro n _ hmod
    rw [nameAt, hmod]
    rfl
  have hrest : ∀ n ∈ rowNodes board, (n - base board) % 4 ≠ 0 →
      ∃ a b, nameAt board n = 100 * (a + 1) + b * 10 + (rowAt board n).2 := by
    intro n _ hmod
    refine ⟨(n - base board) % 4 - 1, partOf ((n - base board) % 4) (rowAt board n).1, ?_⟩
    rw [nameAt, nodeName_part (by omega) (Nat.mod_lt _ (by decide))]
    omega
  have hmem : ∀ n ∈ rowNodes board, ∀ k ∈ rowNodes board, (k - base board) / 4 = (n - base board) / 4 →
      k ∈ n :: othersAt board n := by
    intro n hn k hk hdiv
    rw [List.mem_cons, mem_othersAt hn.1]
    by_cases hkn : k = n
    · exact .inl hkn
    · exact .inr ⟨hkn, hk.1, hdiv⟩
  refine ⟨fun n hn => (hcell n hn).1, fun n hn hlt => ?_, fun n hn hge => ?_, fun n hn => ?_, fun n hn => ?_⟩
  · rw [hname n hn] at hlt ⊢
    by_cases hmod : (n - base board) % 4 = 0
    · exact hfirst n hn hmod
    · obtain ⟨a, b, heq⟩ := hrest n hn hmod
      omega
  · rw [hname n hn] at hge ⊢
    have hbound := hcell n hn
    by_cases hmod : (n - base board) % 4 = 0
    · rw [hfirst n hn hmod] at hge
      omega
    · obtain ⟨a, b, heq⟩ := hrest n hn hmod
      rw [heq]
      change _ = (rowAt board n).2
      omega
  · have hk : n - (n - base board) % 4 ∈ rowNodes board := by
      obtain ⟨hge, hlt⟩ := hn
      exact ⟨by omega, by omega⟩
    have hge := hn.1
    refine ⟨_, hmem n hn _ hk (by omega), ?_⟩
    rw [hname _ hk, hfirst _ hk (by omega)]
    have := hcell _ hk
    omega
  · have hk : n - (n - base board) % 4 + 1 ∈ rowNodes board := by
      obtain ⟨hge, hlt⟩ := hn
      exact ⟨by omega, by omega⟩
    have hge := hn.1
    refine ⟨_, hmem n hn _ hk (by omega), ?_⟩
    obtain ⟨a, b, heq⟩ := hrest _ hk (by omega)
    rw [hname _ hk, heq]
    omega

end Matrix

end CppBase.Muduo.Sudoku
