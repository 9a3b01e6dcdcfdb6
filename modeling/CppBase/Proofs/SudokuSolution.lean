import CppBase.Proofs.SudokuSearch
import CppBase.Sanity.SudokuRules

/-! `solveSudoku` answers every puzzle: with a solution if there is one, and with `kNoSolution` if
there is none. -/

namespace CppBase.Muduo.Sudoku

open CppBase.Lib SudokuSolver

variable {board : ℕ → ℕ} {s t : SudokuSolver} {i v : ℕ}

section Board

theorem written_eq {M : Layout (ℕ × ℕ)} {l : List ℕ} (hl : ∀ n ∈ l, (M.row n).1 = i → (M.row n).2 = v)
    (hv : board i = v ∨ ∃ n ∈ l, (M.row n).1 = i) : written M l board i = v := by
  induction l generalizing board with
  | nil => simpa [written] using hv
  | cons n l ih =>
    obtain ⟨hn, hl⟩ := List.forall_mem_cons.mp hl
    have hrest : written M (n :: l) board = written M l (Function.update board (M.row n).1 (M.row n).2) := rfl
    rw [hrest]
    apply ih hl
    by_cases hi : (M.row n).1 = i
    · left
      rw [← hi, Function.update_self]
      exact hn hi
    · rw [Function.update_of_ne (Ne.symm hi)]
      simpa [hi] using hv

/-- The rows of a cover leave the given values and write their own. -/
theorem written_isSolution {picked : List ℕ} (hboard : ∀ i < kCells, board i < 10)
    (hcover : Covers board {x | ∃ n ∈ picked, (layout board).row n = x}) :
    IsSolution board (written (layout board) picked board) := by
  obtain ⟨hrows, hnames⟩ := covers_iff.mp hcover
  have hcand : ∀ n ∈ picked, (layout board).row n ∈ candidates board := fun n hn => hrows _ ⟨n, hn, rfl⟩
  refine Covers.isSolution hboard hcover (fun i _ hne => ?_) ?_
  · refine written_eq (fun n hn hi => ?_) (.inl rfl)
    have hempty := (candidate_iff.mp (hcand n hn)).2.1
    rw [hi] at hempty
    exact absurd hempty hne
  · rintro x ⟨n, hn, rfl⟩
    refine written_eq (fun m hm hcell => ?_) (.inr ⟨n, hn, rfl⟩)
    -- the column of the cell is covered once
    obtain ⟨⟨hi, -⟩, hempty, -⟩ := candidate_iff.mp (hcand n hn)
    obtain ⟨y, -, honly⟩ := hnames _ (mem_colNames.mpr (.inl ⟨hi, hempty⟩))
    have hm' := honly _ ⟨⟨m, hm, rfl⟩, (meets_cell hi).mpr hcell⟩
    have hn' := honly _ ⟨⟨n, hn, rfl⟩, (meets_cell hi).mpr rfl⟩
    rw [hm', hn']

/-- What `solve` leaves behind the constructor. -/
theorem solve_create (hboard : ∀ i < kCells, board i < 10) (hs : create board = .ok s) :
    ∃ found t, s.solve rounds = .ok (found, t) ∧
      (found = true → ∃ picked, Covers board {x | ∃ n ∈ picked, (layout board).row n = x} ∧
        t.inout = written (layout board) picked board) ∧
      (found = false → t = s ∧ ∀ S, ¬ Covers board S) := by
  obtain ⟨s', hs', h⟩ := create_hasRows hboard
  obtain rfl : s' = s := Except.ok.inj (hs'.symm.trans hs)
  have hdepth : (List.range' 1 (colNames board).length).length < rounds := by
    have := length_colNames board
    rw [List.length_range', rounds, kMaxNodes]
    omega
  obtain ⟨found, t, ht, hout⟩ := solve_outcome h.shows h.root h.named (by simp [h.stack]) hdepth
  refine ⟨found, t, ht, fun hfound => ?_, hout.failed⟩
  obtain ⟨picked, -, hcover, hinout⟩ := hout.solved hfound
  rw [h.stack, h.inout, List.nil_append] at hinout
  exact ⟨picked, hcover, hinout⟩

/-- The search finds an exact cover if there is one. If not, it has put back every link. -/
theorem solve_finds_cover (board : ℕ → ℕ) (hboard : ∀ i < kCells, board i < 10) :
    ∃ s found t, create board = .ok s ∧ s.solve rounds = .ok (found, t) ∧
      (found = true ↔ ∃ S, Covers board S) ∧ (found = false → t = s) := by
  obtain ⟨s, hs, -⟩ := create_hasRows hboard
  obtain ⟨found, t, ht, hsolved, hfailed⟩ := solve_create hboard hs
  refine ⟨s, found, t, hs, ht, ⟨fun hfound => ?_, ?_⟩, fun hfound => (hfailed hfound).1⟩
  · obtain ⟨picked, hcover, -⟩ := hsolved hfound
    exact ⟨_, hcover⟩
  · rintro ⟨S, hS⟩
    cases found with
    | true => rfl
    | false => exact absurd hS ((hfailed rfl).2 S)

/-- Each row is the one above moved by three cells, and below each three rows by one more. -/
def shifted (i : ℕ) : ℕ := (3 * (rowOf i % 3) + rowOf i / 3 + colOf i) % 9 + 1

theorem shifted_isSolution : IsSolution (fun _ => 0) shifted := by
  have hcard : ∀ r < 4, 1 ≤ r → ∀ p < 9, ∀ v < 10, 1 ≤ v →
      ((Finset.range kCells).filter fun i => partOf r i = p ∧ shifted i = v).card = 1 := by
    decide +kernel
  refine ⟨fun i _ hne => absurd rfl hne, fun i _ => by unfold shifted; omega, fun part hpart p hp v hv hv' => ?_⟩
  obtain ⟨r, hr, hr', rfl⟩ := mem_parts.mp hpart
  obtain ⟨i, hone⟩ := Finset.card_eq_one.mp (hcard r hr' hr p hp v (by omega) hv)
  have hiff : ∀ j, j < kCells ∧ partOf r j = p ∧ shifted j = v ↔ j = i := by
    intro j
    rw [← Finset.mem_singleton (a := i), ← hone, Finset.mem_filter, Finset.mem_range]
  exact ⟨i, (hiff i).mpr rfl, fun j hj => (hiff j).mp hj⟩

theorem solve_finds_cover_empty :
    ∃ s t, create (fun _ => 0) = .ok s ∧ s.solve rounds = .ok (true, t) := by
  obtain ⟨s, found, t, hs, ht, hfound, -⟩ := solve_finds_cover (fun _ => 0) fun _ _ => by decide
  obtain rfl : found = true := hfound.mpr ⟨_, shifted_isSolution.covers⟩
  exact ⟨s, t, hs, ht⟩

end Board

section Puzzle

def IsPuzzle (puzzle : List UInt8) : Prop := puzzle.length = kCells ∧ ∀ b ∈ puzzle, 48 ≤ b ∧ b ≤ 57

def digits (puzzle : List UInt8) (i : ℕ) : ℕ := (puzzle.getD i 0).toNat - 48

theorem isDigit_iff {b : UInt8} : 48 ≤ b ∧ b ≤ 57 ↔ 48 ≤ b.toNat ∧ b.toNat ≤ 57 := Iff.rfl

theorem IsPuzzle.byte {puzzle : List UInt8} (h : IsPuzzle puzzle) (hi : i < kCells) :
    48 ≤ (puzzle.getD i 0).toNat ∧ (puzzle.getD i 0).toNat ≤ 57 := by
  have hlt : i < puzzle.length := h.1 ▸ hi
  rw [List.getD_eq_getElem _ _ hlt]
  exact isDigit_iff.mp (h.2 _ (List.getElem_mem hlt))

theorem isPuzzle_iff {puzzle : List UInt8} (hlen : puzzle.length = kCells) : IsPuzzle puzzle ↔
    ∀ i < kCells, 0 ≤ ((puzzle.getD i 0).toNat : ℤ) - 48 ∧ ((puzzle.getD i 0).toNat : ℤ) - 48 ≤ 9 := by
  constructor
  · intro h i hi
    have := h.byte hi
    omega
  · intro h
    refine ⟨hlen, fun b hb => isDigit_iff.mpr ?_⟩
    obtain ⟨i, hi, rfl⟩ := List.mem_iff_getElem.mp hb
    have hbyte := h i (hlen ▸ hi)
    rw [List.getD_eq_getElem _ _ hi] at hbyte
    omega

theorem digits_lt {puzzle : List UInt8} (h : IsPuzzle puzzle) : ∀ i < kCells, digits puzzle i < 10 := by
  intro i hi
  have := h.byte hi
  rw [digits]
  omega

def printed (grid : ℕ → ℕ) : List UInt8 := (List.range kCells).map fun i => (grid i + 48).toUInt8

theorem digits_printed {grid : ℕ → ℕ} (hgrid : ∀ i < kCells, 1 ≤ grid i ∧ grid i ≤ 9) (hi : i < kCells) :
    digits (printed grid) i = grid i := by
  have hlt : i < (printed grid).length := by simpa [printed] using hi
  obtain ⟨-, hle⟩ := hgrid i hi
  have hbyte : (printed grid)[i] = (grid i + 48).toUInt8 := by simp [printed]
  rw [digits, List.getD_eq_getElem _ _ hlt, hbyte, Nat.toUInt8_eq, UInt8.toNat_ofNat']
  omega

theorem printed_isPuzzle {grid : ℕ → ℕ} (hgrid : ∀ i < kCells, 1 ≤ grid i ∧ grid i ≤ 9) :
    IsPuzzle (printed grid) := by
  have hlen : (printed grid).length = kCells := by simp [printed]
  refine ⟨hlen, fun b hb => isDigit_iff.mpr ?_⟩
  obtain ⟨i, hi, rfl⟩ := List.mem_map.mp hb
  obtain ⟨-, hle⟩ := hgrid i (List.mem_range.mp hi)
  rw [Nat.toUInt8_eq, UInt8.toNat_ofNat']
  omega

theorem solveSudoku_eq {puzzle : List UInt8} (h : IsPuzzle puzzle) :
    solveSudoku puzzle = create (digits puzzle) >>= fun s => s.solve rounds >>= fun r =>
      .ok (if r.1 then printed r.2.inout else kNoSolution) := by
  have hboard : (fun i => (((puzzle.getD i 0).toNat : ℤ) - 48).toNat) = digits puzzle := by
    funext i
    rw [digits]
    omega
  rw [solveSudoku, if_pos h.1]
  simp only [if_pos ((isPuzzle_iff h.1).mp h), hboard]
  rfl

/-- Every puzzle is answered, and `kNoSolution` means that there is none; a puzzle with a byte that is
no digit has none either. -/
theorem solveSudoku_answers (puzzle : List UInt8) (hlen : puzzle.length = kCells) :
    ∃ answer, solveSudoku puzzle = .ok answer ∧
      ((IsPuzzle puzzle ∧ IsPuzzle answer ∧ IsSolution (digits puzzle) (digits answer)) ∨
        (answer = kNoSolution ∧ (IsPuzzle puzzle → ∀ grid, ¬ IsSolution (digits puzzle) grid))) := by
  by_cases h : IsPuzzle puzzle
  · obtain ⟨s, hs, -⟩ := create_hasRows (digits_lt h)
    obtain ⟨found, t, ht, hsolved, hfailed⟩ := solve_create (digits_lt h) hs
    refine ⟨if found then printed t.inout else kNoSolution, ?_, ?_⟩
    · rw [solveSudoku_eq h, hs, ok_bind, ht, ok_bind]
    · cases found with
      | true =>
        obtain ⟨picked, hcover, hinout⟩ := hsolved rfl
        have hsol : IsSolution (digits puzzle) t.inout := hinout ▸ written_isSolution (digits_lt h) hcover
        exact .inl ⟨h, printed_isPuzzle hsol.value, hsol.congr fun i hi => digits_printed hsol.value hi⟩
      | false => exact .inr ⟨rfl, fun _ grid hgrid => (hfailed rfl).2 _ hgrid.covers⟩
  · refine ⟨kNoSolution, ?_, .inr ⟨rfl, fun hpuzzle => absurd hpuzzle h⟩⟩
    rw [solveSudoku, if_pos hlen]
    simp only [if_neg (mt (isPuzzle_iff hlen).mpr h)]

theorem solveSudoku_answers_empty :
    ∃ answer, solveSudoku (List.replicate 81 48) = .ok answer ∧ IsPuzzle answer ∧
      IsSolution (fun _ => 0) (digits answer) := by
  have hpuzzle : IsPuzzle (List.replicate 81 48) := ⟨List.length_replicate, by simp⟩
  have hzero : ∀ i < kCells, digits (List.replicate 81 48) i = 0 := by decide
  obtain ⟨answer, hanswer, ⟨-, hdigits, hsol⟩ | ⟨-, hnone⟩⟩ :=
    solveSudoku_answers (List.replicate 81 48) List.length_replicate
  · exact ⟨answer, hanswer, hdigits, fun i _ hne => absurd rfl hne, hsol.value, hsol.once⟩
  · -- the board of zeros has a solution
    refine absurd ⟨fun i hi hne => absurd (hzero i hi) hne, ?_, ?_⟩ (hnone hpuzzle shifted)
    · exact shifted_isSolution.value
    · exact shifted_isSolution.once

end Puzzle

end CppBase.Muduo.Sudoku
