import CppBase.Sanity.SudokuMatrix
import Mathlib.Data.Finset.Card
import Mathlib.Order.Interval.Finset.Nat

/-! The exact covers of the matrix are the solutions of the board. A cover has each missing value in
each row, column and box at least once; since there are as many cells as values, no value comes twice,
also none that the board has itself. -/

namespace CppBase.Muduo.Sudoku

open CppBase.Lib SudokuSolver

variable {board grid : ℕ → ℕ} {i k p r v : ℕ} {x : ℕ × ℕ} {S : Set (ℕ × ℕ)}

/-- `grid` fills the empty cells of `board` by the rules. -/
structure IsSolution (board grid : ℕ → ℕ) : Prop where
  given : ∀ i < kCells, board i ≠ 0 → grid i = board i
  value : ∀ i < kCells, 1 ≤ grid i ∧ grid i ≤ 9
  once : ∀ part ∈ [rowOf, colOf, boxOf], ∀ p < 9, ∀ v, 1 ≤ v → v ≤ 9 →
    ∃! i, i < kCells ∧ part i = p ∧ grid i = v

theorem IsSolution.congr {grid' : ℕ → ℕ} (h : IsSolution board grid) (hsame : ∀ i < kCells, grid' i = grid i) :
    IsSolution board grid' := by
  refine ⟨fun i hi hne => (hsame i hi).trans (h.given i hi hne), fun i hi => ?_, fun part hpart p hp v hv hv' => ?_⟩
  · rw [hsame i hi]
    exact h.value i hi
  · obtain ⟨i, ⟨hi, hpi, hvi⟩, honly⟩ := h.once part hpart p hp v hv hv'
    refine ⟨i, ⟨hi, hpi, (hsame i hi).trans hvi⟩, ?_⟩
    rintro j ⟨hj, hpj, hvj⟩
    exact honly j ⟨hj, hpj, (hsame j hj).symm.trans hvj⟩

section Parts

theorem mem_parts {part : ℕ → ℕ} : part ∈ [rowOf, colOf, boxOf] ↔ ∃ r, 1 ≤ r ∧ r < 4 ∧ part = partOf r := by
  simp only [List.mem_cons, List.not_mem_nil, or_false]
  constructor
  · rintro (rfl | rfl | rfl)
    · exact ⟨1, by decide, by decide, rfl⟩
    · exact ⟨2, by decide, by decide, rfl⟩
    · exact ⟨3, by decide, by decide, rfl⟩
  · rintro ⟨r, hr, hr', rfl⟩
    obtain rfl | rfl | rfl : r = 1 ∨ r = 2 ∨ r = 3 := by omega
    · exact .inl rfl
    · exact .inr (.inl rfl)
    · exact .inr (.inr rfl)

theorem IsSolution.once_part (h : IsSolution board grid) (hr : 1 ≤ r) (hr' : r < 4) (hp : p < 9) (hv : 1 ≤ v)
    (hv' : v ≤ 9) : ∃! i, i < kCells ∧ partOf r i = p ∧ grid i = v :=
  h.once _ (mem_parts.mpr ⟨r, hr, hr', rfl⟩) p hp v hv hv'

theorem card_part (hr : 1 ≤ r) (hr' : r < 4) (hp : p < 9) :
    ((Finset.range kCells).filter (partOf r · = p)).card = 9 := by
  have hall : ∀ r < 4, 1 ≤ r → ∀ p < 9, ((Finset.range kCells).filter (partOf r · = p)).card = 9 := by decide
  exact hall r hr' hr p hp

def Free (board : ℕ → ℕ) (r p v : ℕ) : Prop := ∀ i < kCells, partOf r i = p → board i ≠ v

theorem rows_free : (marks board).rows p v = false ↔ Free board 1 p v := by
  rw [← Bool.not_eq_true, marks_rows]
  simp [Free, partOf]

theorem cols_free : (marks board).cols p v = false ↔ Free board 2 p v := by
  rw [← Bool.not_eq_true, marks_cols]
  simp [Free, partOf]

theorem boxes_free : (marks board).boxes p v = false ↔ Free board 3 p v := by
  rw [← Bool.not_eq_true, marks_boxes]
  simp [Free, partOf]

theorem candidate_iff : x ∈ candidates board ↔ (x.1 < kCells ∧ 1 ≤ x.2 ∧ x.2 ≤ 9) ∧ board x.1 = 0 ∧
    ∀ r, 1 ≤ r → r < 4 → Free board r (partOf r x.1) x.2 := by
  rw [mem_candidates, rows_free, cols_free, boxes_free]
  refine and_congr_right fun _ => and_congr_right fun _ => ⟨?_, fun h => ?_⟩
  · rintro ⟨h1, h2, h3⟩ r hr hr'
    obtain rfl | rfl | rfl : r = 1 ∨ r = 2 ∨ r = 3 := by omega
    · exact h1
    · exact h2
    · exact h3
  · exact ⟨h 1 (by decide) (by decide), h 2 (by decide) (by decide), h 3 (by decide) (by decide)⟩

theorem mem_unless {b : Bool} {a : ℕ} : k ∈ (if b then [] else [a] : List ℕ) ↔ b = false ∧ k = a := by
  cases b <;> simp

theorem mem_valueNames : k ∈ valueNames (marks board) (p, v) ↔
    ∃ r, 1 ≤ r ∧ r < 4 ∧ Free board r p v ∧ k = 100 * r + p * 10 + v := by
  rw [valueNames, List.mem_append, List.mem_append, mem_unless, mem_unless, mem_unless, rows_free, cols_free,
    boxes_free]
  constructor
  · rintro (⟨h, rfl⟩ | ⟨h, rfl⟩ | ⟨h, rfl⟩)
    · exact ⟨1, by decide, by decide, h, rfl⟩
    · exact ⟨2, by decide, by decide, h, rfl⟩
    · exact ⟨3, by decide, by decide, h, rfl⟩
  · rintro ⟨r, hr, hr', h, rfl⟩
    obtain rfl | rfl | rfl : r = 1 ∨ r = 2 ∨ r = 3 := by omega
    · exact .inl ⟨h, rfl⟩
    · exact .inr (.inl ⟨h, rfl⟩)
    · exact .inr (.inr ⟨h, rfl⟩)

theorem mem_colNames : k ∈ colNames board ↔ (k < kCells ∧ board k = 0) ∨
    ∃ p v, (p < 9 ∧ 1 ≤ v ∧ v ≤ 9) ∧ ∃ r, 1 ≤ r ∧ r < 4 ∧ Free board r p v ∧ k = 100 * r + p * 10 + v := by
  rw [colNames, List.mem_append, List.mem_flatMap, List.mem_flatMap]
  refine or_congr ?_ ?_
  · constructor
    · rintro ⟨i, hi, hk⟩
      rw [cellNames] at hk
      split_ifs at hk with hempty
      · rw [List.mem_singleton.mp hk]
        exact ⟨List.mem_range.mp hi, hempty⟩
      · simp at hk
    · rintro ⟨hk, hempty⟩
      exact ⟨k, List.mem_range.mpr hk, by simp [cellNames, hempty]⟩
  · constructor
    · rintro ⟨⟨p, v⟩, hpv, hk⟩
      exact ⟨p, v, mem_withValues.mp hpv, mem_valueNames.mp hk⟩
    · rintro ⟨p, v, hpv, hk⟩
      exact ⟨(p, v), mem_withValues.mpr hpv, mem_valueNames.mpr hk⟩

end Parts

section Hits

def Meets (x : ℕ × ℕ) (k : ℕ) : Prop := ∃ r < 4, nodeName x r = k

theorem meets_cell (hi : i < kCells) : Meets x i ↔ x.1 = i := by
  rw [kCells] at hi
  refine ⟨?_, fun h => ⟨0, by decide, h⟩⟩
  rintro ⟨r, hr, hname⟩
  rcases Nat.eq_zero_or_pos r with rfl | hr0
  · exact hname
  · rw [nodeName_part hr0 hr] at hname
    omega

theorem meets_part (hx : x ∈ candidates board) (hr : 1 ≤ r) (hr' : r < 4) (hp : p < 9) (hv : v ≤ 9) :
    Meets x (100 * r + p * 10 + v) ↔ partOf r x.1 = p ∧ x.2 = v := by
  obtain ⟨⟨hi, -, hx2⟩, -⟩ := candidate_iff.mp hx
  constructor
  · rintro ⟨q, hq, hname⟩
    rcases Nat.eq_zero_or_pos q with rfl | hq0
    · have hcell : x.1 = 100 * r + p * 10 + v := hname
      rw [kCells] at hi
      omega
    · have hlt := partOf_lt (r := q) hi
      rw [nodeName_part hq0 hq] at hname
      obtain rfl : q = r := by omega
      exact ⟨by omega, by omega⟩
  · rintro ⟨rfl, rfl⟩
    exact ⟨r, hr', nodeName_part hr hr'⟩

theorem hits_iff :
    (layout board).hits x ((colNames board).idxOf k + 1) ↔ x ∈ candidates board ∧ Meets x k := by
  constructor
  · rintro ⟨n, hn, rfl, hheader⟩
    have hname : (colNames board).idxOf (nameAt board n) = (colNames board).idxOf k := Nat.add_right_cancel hheader
    exact ⟨row_mem hn, _, Nat.mod_lt _ (by decide), (List.idxOf_inj (nameAt_mem (index_lt hn))).mp hname⟩
  · rintro ⟨hx, r, hr, hname⟩
    obtain ⟨j, hj⟩ := List.mem_iff_getElem?.mp hx
    obtain ⟨hlen, -⟩ := List.getElem?_eq_some_iff.mp hj
    refine ⟨base board + 4 * j + r, ⟨by omega, by omega⟩, rowAt_eq hj hr, ?_⟩
    change (colNames board).idxOf (nameAt board (base board + 4 * j + r)) + 1 = _
    rw [nameAt_eq hj hr, hname]

abbrev Covers (board : ℕ → ℕ) (S : Set (ℕ × ℕ)) : Prop :=
  ExactCover (layout board).hits {d | d ∈ List.range' 1 (colNames board).length} {x | x ∈ candidates board} S

theorem covers_iff : Covers board S ↔ (∀ x ∈ S, x ∈ candidates board) ∧
    ∀ k ∈ colNames board, ∃! x, x ∈ S ∧ Meets x k := by
  constructor
  · intro h
    refine ⟨fun x hx => h.rows hx, fun k hk => ?_⟩
    have hmem : (colNames board).idxOf k + 1 ∈ List.range' 1 (colNames board).length := by
      have := List.idxOf_lt_length_of_mem hk
      rw [List.mem_range'_1]
      omega
    obtain ⟨x, ⟨hx, hhit⟩, honly⟩ := h.once _ hmem
    refine ⟨x, ⟨hx, (hits_iff.mp hhit).2⟩, ?_⟩
    rintro y ⟨hy, hmeets⟩
    exact honly y ⟨hy, hits_iff.mpr ⟨h.rows hy, hmeets⟩⟩
  · rintro ⟨hrows, hnames⟩
    refine ⟨hrows, fun d hd => ?_⟩
    have hrange : 1 ≤ d ∧ d < 1 + (colNames board).length := List.mem_range'_1.mp hd
    have hlt : d - 1 < (colNames board).length := by omega
    have hk : (colNames board)[d - 1] ∈ colNames board := List.getElem_mem hlt
    have hd' : d = (colNames board).idxOf (colNames board)[d - 1] + 1 := by
      rw [(allNames_nodup.sublist (colNames_sublist board)).idxOf_getElem]
      omega
    obtain ⟨x, ⟨hx, hmeets⟩, honly⟩ := hnames _ hk
    refine ⟨x, ⟨hx, hd' ▸ hits_iff.mpr ⟨hrows x hx, hmeets⟩⟩, ?_⟩
    rintro y ⟨hy, hhit⟩
    rw [hd'] at hhit
    exact honly y ⟨hy, (hits_iff.mp hhit).2⟩

end Hits

section Solutions

def chosen (board grid : ℕ → ℕ) : Set (ℕ × ℕ) := {x | x.1 < kCells ∧ board x.1 = 0 ∧ x.2 = grid x.1}

theorem IsSolution.chosen_candidate (h : IsSolution board grid) (hx : x ∈ chosen board grid) :
    x ∈ candidates board := by
  obtain ⟨hi, hempty, hv⟩ := hx
  obtain ⟨hge, hle⟩ := h.value x.1 hi
  rw [candidate_iff, hv]
  refine ⟨⟨hi, hge, hle⟩, hempty, fun r hr hr' j hj hpart hboard => ?_⟩
  -- a given value in the same part would be there twice
  have hgrid : grid j = grid x.1 := (h.given j hj (by omega)).trans hboard
  obtain ⟨i, -, honly⟩ := h.once_part hr hr' (partOf_lt hi) hge hle
  have hsame : j = x.1 := (honly j ⟨hj, hpart, hgrid⟩).trans (honly x.1 ⟨hi, rfl, rfl⟩).symm
  rw [hsame] at hboard
  omega

theorem IsSolution.covers (h : IsSolution board grid) : Covers board (chosen board grid) := by
  refine covers_iff.mpr ⟨fun x hx => h.chosen_candidate hx, fun k hk => ?_⟩
  rcases mem_colNames.mp hk with ⟨hi, hempty⟩ | ⟨p, v, ⟨hp, hv, hv'⟩, r, hr, hr', hfree, rfl⟩
  · have hmem : (k, grid k) ∈ chosen board grid := ⟨hi, hempty, rfl⟩
    refine ⟨(k, grid k), ⟨hmem, (meets_cell hi).mpr rfl⟩, ?_⟩
    rintro y ⟨hy, hmeets⟩
    have hcell := (meets_cell hi).mp hmeets
    exact Prod.ext hcell (hy.2.2.trans (congrArg grid hcell))
  · obtain ⟨i, ⟨hi, hpart, hgrid⟩, honly⟩ := h.once_part hr hr' hp hv hv'
    have hempty : board i = 0 := by
      by_contra hne
      exact hfree i hi hpart ((h.given i hi hne).symm.trans hgrid)
    have hmem : (i, v) ∈ chosen board grid := ⟨hi, hempty, hgrid.symm⟩
    refine ⟨(i, v), ⟨hmem, (meets_part (h.chosen_candidate hmem) hr hr' hp hv').mpr ⟨hpart, rfl⟩⟩, ?_⟩
    rintro y ⟨hy, hmeets⟩
    obtain ⟨hpart', hval⟩ := (meets_part (h.chosen_candidate hy) hr hr' hp hv').mp hmeets
    exact Prod.ext (honly y.1 ⟨hy.1, hpart', hy.2.2.symm.trans hval⟩) hval

variable (hboard : ∀ i < kCells, board i < 10) (hcover : Covers board S)
  (hgiven : ∀ i < kCells, board i ≠ 0 → grid i = board i) (hgrid : ∀ x ∈ S, grid x.1 = x.2)

include hcover hgrid

theorem Covers.mem_of_empty (hi : i < kCells) (hempty : board i = 0) : (i, grid i) ∈ S := by
  obtain ⟨-, hnames⟩ := covers_iff.mp hcover
  obtain ⟨x, ⟨hx, hmeets⟩, -⟩ := hnames i (mem_colNames.mpr (.inl ⟨hi, hempty⟩))
  obtain rfl := (meets_cell hi).mp hmeets
  rw [hgrid x hx]
  exact hx

include hgiven

/-- Each value is somewhere in each part. -/
theorem Covers.exists_cell (hr : 1 ≤ r) (hr' : r < 4) (hp : p < 9) (hv : 1 ≤ v) (hv' : v ≤ 9) :
    ∃ i < kCells, partOf r i = p ∧ grid i = v := by
  by_cases hfree : Free board r p v
  · obtain ⟨hrows, hnames⟩ := covers_iff.mp hcover
    obtain ⟨x, ⟨hx, hmeets⟩, -⟩ := hnames _ (mem_colNames.mpr (.inr ⟨p, v, ⟨hp, hv, hv'⟩, r, hr, hr', hfree, rfl⟩))
    obtain ⟨hpart, hval⟩ := (meets_part (hrows x hx) hr hr' hp hv').mp hmeets
    exact ⟨x.1, (candidate_iff.mp (hrows x hx)).1.1, hpart, (hgrid x hx).trans hval⟩
  · rw [Free] at hfree
    push Not at hfree
    obtain ⟨i, hi, hpart, hval⟩ := hfree
    exact ⟨i, hi, hpart, (hgiven i hi (by omega)).trans hval⟩

include hboard

theorem Covers.value (hi : i < kCells) : 1 ≤ grid i ∧ grid i ≤ 9 := by
  by_cases hempty : board i = 0
  · have hx := (covers_iff.mp hcover).1 _ (Covers.mem_of_empty hcover hgrid hi hempty)
    exact (candidate_iff.mp hx).1.2
  · have := hboard i hi
    rw [hgiven i hi hempty]
    omega

theorem Covers.isSolution : IsSolution board grid := by
  refine ⟨hgiven, fun i hi => Covers.value hboard hcover hgiven hgrid hi, fun part hpart p hp v hv hv' => ?_⟩
  obtain ⟨r, hr, hr', rfl⟩ := mem_parts.mp hpart
  -- nine cells take nine values, so none twice
  have hmaps : Set.MapsTo grid ((Finset.range kCells).filter (partOf r · = p)) (Finset.Icc 1 9) := by
    intro i hi
    have hi' := (Finset.mem_filter.mp (Finset.mem_coe.mp hi)).1
    exact Finset.mem_coe.mpr (Finset.mem_Icc.mpr (Covers.value hboard hcover hgiven hgrid (Finset.mem_range.mp hi')))
  have hsurj : Set.SurjOn grid ((Finset.range kCells).filter (partOf r · = p)) (Finset.Icc 1 9) := by
    intro w hw
    obtain ⟨hw, hw'⟩ := Finset.mem_Icc.mp (Finset.mem_coe.mp hw)
    obtain ⟨i, hi, hpart, hval⟩ := Covers.exists_cell hcover hgiven hgrid hr hr' hp hw hw'
    exact ⟨i, Finset.mem_coe.mpr (Finset.mem_filter.mpr ⟨Finset.mem_range.mpr hi, hpart⟩), hval⟩
  have hinj := Finset.injOn_of_surjOn_of_card_le grid hmaps hsurj (by rw [card_part hr hr' hp]; simp)
  obtain ⟨i, hi, hpi, hval⟩ := Covers.exists_cell hcover hgiven hgrid hr hr' hp hv hv'
  refine ⟨i, ⟨hi, hpi, hval⟩, ?_⟩
  rintro j ⟨hj, hpj, hval'⟩
  refine hinj ?_ ?_ (hval'.trans hval.symm)
  · exact Finset.mem_coe.mpr (Finset.mem_filter.mpr ⟨Finset.mem_range.mpr hj, hpj⟩)
  · exact Finset.mem_coe.mpr (Finset.mem_filter.mpr ⟨Finset.mem_range.mpr hi, hpi⟩)

end Solutions

end CppBase.Muduo.Sudoku
