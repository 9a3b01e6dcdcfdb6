import CppBase.Lib.LinkRing
import Mathlib.Data.Int.Notation
import Mathlib.Data.Nat.Notation

/-! The solver of `muduo/examples/sudoku/sudoku.cc`. A node is its index in `nodes_`, and each field
of the nodes is a table. -/

namespace CppBase.Muduo.Sudoku

open CppBase.Lib

def kCells : ℕ := 81

def kMaxNodes : ℕ := 1 + 81 * 4 + 9 * 9 * 9 * 4

def kMaxColumns : ℕ := 400

def kRow : ℕ := 100

def kCol : ℕ := 200

def kBox : ℕ := 300

/-- More rounds than any loop takes that ends: it passes each node at most once. -/
def rounds : ℕ := kMaxNodes + 1

inductive Fault
  | assertion
  | bounds
  | endless
  deriving DecidableEq

@[ext] structure Nodes where
  left : ℕ → ℕ
  right : ℕ → ℕ
  up : ℕ → ℕ
  down : ℕ → ℕ
  col : ℕ → ℕ
  name : ℕ → ℕ
  size : ℕ → ℤ

namespace Nodes

def clear (s : Nodes) (c n : ℕ) : Nodes :=
  { s with
    left := Function.update s.left c c
    right := Function.update s.right c c
    up := Function.update s.up c c
    down := Function.update s.down c c
    name := Function.update s.name c n
    size := Function.update s.size c 0 }

def setCol (s : Nodes) (n c : ℕ) : Nodes := { s with col := Function.update s.col n c }

def putLeft (s : Nodes) (old nnew : ℕ) : Nodes :=
  let s := { s with left := Function.update s.left nnew (s.left old) }
  let s := { s with right := Function.update s.right nnew old }
  let s := { s with right := Function.update s.right (s.left old) nnew }
  { s with left := Function.update s.left old nnew }

def putUp (s : Nodes) (old nnew : ℕ) : Nodes :=
  let s := { s with up := Function.update s.up nnew (s.up old) }
  let s := { s with down := Function.update s.down nnew old }
  let s := { s with down := Function.update s.down (s.up old) nnew }
  let s := { s with up := Function.update s.up old nnew }
  let s := { s with size := Function.update s.size old (s.size old + 1) }
  { s with col := Function.update s.col nnew old }

/-- The inner body of `cover`. -/
def unlink (s : Nodes) (j : ℕ) : Nodes :=
  let s := { s with up := Function.update s.up (s.down j) (s.up j) }
  let s := { s with down := Function.update s.down (s.up j) (s.down j) }
  { s with size := Function.update s.size (s.col j) (s.size (s.col j) - 1) }

/-- The inner body of `uncover`. -/
def relink (s : Nodes) (j : ℕ) : Nodes :=
  let s := { s with size := Function.update s.size (s.col j) (s.size (s.col j) + 1) }
  let s := { s with up := Function.update s.up (s.down j) j }
  { s with down := Function.update s.down (s.up j) j }

/-- The first two lines of `cover`. -/
def hide (s : Nodes) (c : ℕ) : Nodes :=
  let s := { s with left := Function.update s.left (s.right c) (s.left c) }
  { s with right := Function.update s.right (s.left c) (s.right c) }

/-- The last two lines of `uncover`. -/
def unhide (s : Nodes) (c : ℕ) : Nodes :=
  let s := { s with left := Function.update s.left (s.right c) c }
  { s with right := Function.update s.right (s.left c) c }

def coverRow (s : Nodes) (row : ℕ) : Except Fault Nodes :=
  walk right row (fun s j => .ok (s.unlink j)) .endless rounds (s.right row) s

def cover (s : Nodes) (c : ℕ) : Except Fault Nodes :=
  let s := s.hide c
  walk down c coverRow .endless rounds (s.down c) s

def uncoverRow (s : Nodes) (row : ℕ) : Except Fault Nodes :=
  walk left row (fun s j => .ok (s.relink j)) .endless rounds (s.left row) s

def uncover (s : Nodes) (c : ℕ) : Except Fault Nodes := do
  let s ← walk up c uncoverRow .endless rounds (s.up c) s
  .ok (s.unhide c)

def coverAt (s : Nodes) (j : ℕ) : Except Fault Nodes := s.cover (s.col j)

def uncoverAt (s : Nodes) (j : ℕ) : Except Fault Nodes := s.uncover (s.col j)

def coverOthers (s : Nodes) (row : ℕ) : Except Fault Nodes :=
  walk right row coverAt .endless rounds (s.right row) s

def uncoverOthers (s : Nodes) (row : ℕ) : Except Fault Nodes :=
  walk left row uncoverAt .endless rounds (s.left row) s

/-- The `while` loop for a node of the stack; `-1` is `none`. -/
def readRow (s : Nodes) : ℕ → ℕ → Option ℕ → Option ℕ → Except Fault (ℕ × ℕ)
  | _, _, some cell, some val => .ok (cell, val)
  | 0, _, _, _ => .error .endless
  | fuel + 1, n, cell, val =>
    if s.name n < 100 then s.readRow fuel (s.right n) (some (s.name n)) val
    else s.readRow fuel (s.right n) cell (some (s.name n % 10))

end Nodes

structure SudokuSolver where
  root : ℕ
  inout : ℕ → ℕ
  columns : ℕ → Option ℕ
  stack : List ℕ
  nodes : Nodes
  curNode : ℕ

namespace SudokuSolver

section Construction

/-- `nodes_[cur_node_++]` -/
def newNode (s : SudokuSolver) (n : ℕ) : Except Fault (ℕ × SudokuSolver) :=
  let c := s.curNode
  if c < kMaxNodes then
    .ok (c, { s with nodes := s.nodes.clear c n, curNode := c + 1 })
  else .error .assertion

def newColumn (s : SudokuSolver) (n : ℕ) : Except Fault (ℕ × SudokuSolver) := do
  let (c, s) ← s.newNode n
  .ok (c, { s with nodes := s.nodes.setCol c c })

def appendColumn (s : SudokuSolver) (n : ℕ) : Except Fault SudokuSolver :=
  if n < kMaxColumns then
    match s.columns n with
    | none => do
      let (c, s) ← s.newColumn n
      .ok { s with nodes := s.nodes.putLeft s.root c, columns := Function.update s.columns n (some c) }
    | some _ => .error .assertion
  else .error .bounds

def newRow (s : SudokuSolver) (col : ℕ) : Except Fault (ℕ × SudokuSolver) :=
  if col < kMaxColumns then
    match s.columns col with
    | none => .error .assertion
    | some c => do
      let (r, s) ← s.newNode col
      .ok (r, { s with nodes := (s.nodes.setCol r c).putUp c r })
  else .error .bounds

def getRowCol (row val : ℕ) : ℕ := kRow + row * 10 + val

def getColCol (col val : ℕ) : ℕ := kCol + col * 10 + val

def getBoxCol (box val : ℕ) : ℕ := kBox + box * 10 + val

def rowOf (i : ℕ) : ℕ := i / 9

def colOf (i : ℕ) : ℕ := i % 9

def boxOf (i : ℕ) : ℕ := rowOf i / 3 * 3 + colOf i / 3

/-- The values that the board has in each row, column and box. -/
structure Marks where
  rows : ℕ → ℕ → Bool
  cols : ℕ → ℕ → Bool
  boxes : ℕ → ℕ → Bool

def Marks.mark (board : ℕ → ℕ) (m : Marks) (i : ℕ) : Marks where
  rows := Function.update m.rows (rowOf i) (Function.update (m.rows (rowOf i)) (board i) true)
  cols := Function.update m.cols (colOf i) (Function.update (m.cols (colOf i)) (board i) true)
  boxes := Function.update m.boxes (boxOf i) (Function.update (m.boxes (boxOf i)) (board i) true)

def marks (board : ℕ → ℕ) : Marks :=
  (List.range kCells).foldl (Marks.mark board) ⟨fun _ _ => false, fun _ _ => false, fun _ _ => false⟩

def appendCell (s : SudokuSolver) (i : ℕ) : Except Fault SudokuSolver :=
  if s.inout i = 0 then s.appendColumn i else .ok s

def appendValue (m : Marks) (s : SudokuSolver) : ℕ × ℕ → Except Fault SudokuSolver
  | (i, v) => do
    let s ← if m.rows i v then .ok s else s.appendColumn (getRowCol i v)
    let s ← if m.cols i v then .ok s else s.appendColumn (getColCol i v)
    if m.boxes i v then .ok s else s.appendColumn (getBoxCol i v)

def appendRow (m : Marks) (s : SudokuSolver) : ℕ × ℕ → Except Fault SudokuSolver
  | (i, v) =>
    if s.inout i = 0 then
      if m.rows (rowOf i) v || m.cols (colOf i) v || m.boxes (boxOf i) v then .ok s
      else do
        let (n0, s) ← s.newRow i
        let (nr, s) ← s.newRow (getRowCol (rowOf i) v)
        let (nc, s) ← s.newRow (getColCol (colOf i) v)
        let (nb, s) ← s.newRow (getBoxCol (boxOf i) v)
        .ok { s with nodes := ((s.nodes.putLeft n0 nr).putLeft n0 nc).putLeft n0 nb }
    else .ok s

/-- Every `i` with every `v`, in the order of the two loops. -/
def withValues (n : ℕ) : List (ℕ × ℕ) := (List.range n).flatMap fun i => (List.range' 1 9).map fun v => (i, v)

/-- `rows`, `cols` and `boxes` have places for the values below 10. -/
def create (board : ℕ → ℕ) : Except Fault SudokuSolver :=
  if ∀ i < kCells, board i < 10 then do
    let (root, s) ← newColumn
      { root := 0, inout := board, columns := fun _ => none, stack := [],
        nodes := ⟨fun _ => 0, fun _ => 0, fun _ => 0, fun _ => 0, fun _ => 0, fun _ => 0, fun _ => 0⟩,
        curNode := 0 } 0
    let s ← runAll appendCell { s with root } (List.range kCells)
    let s ← runAll (appendValue (marks board)) s (withValues 9)
    runAll (appendRow (marks board)) s (withValues kCells)
  else .error .bounds

end Construction

section Search

def minLoop (s : SudokuSolver) : ℕ → ℕ → ℕ → ℤ → Except Fault ℕ
  | 0, _, _, _ => .error .endless
  | fuel + 1, cc, c, minSize =>
    if cc = s.root then .ok c
    else if minSize > s.nodes.size cc then
      if s.nodes.size cc ≤ 1 then .ok cc else s.minLoop fuel (s.nodes.right cc) cc (s.nodes.size cc)
    else s.minLoop fuel (s.nodes.right cc) c minSize

def getMinColumn (s : SudokuSolver) : Except Fault ℕ :=
  let c := s.nodes.right s.root
  if s.nodes.size c > 1 then s.minLoop rounds (s.nodes.right c) c (s.nodes.size c) else .ok c

def writeRow (s : SudokuSolver) (n : ℕ) : Except Fault SudokuSolver := do
  let (cell, val) ← s.nodes.readRow rounds n none none
  if cell < kCells then .ok { s with inout := Function.update s.inout cell val } else .error .bounds

/-- The loop of `solve` over the rows of `col`; `deeper` is the call of `solve` in it. -/
def tryRows (deeper : SudokuSolver → Except Fault (Bool × SudokuSolver)) (col : ℕ) :
    ℕ → ℕ → SudokuSolver → Except Fault (Bool × SudokuSolver)
  | 0, _, _ => .error .endless
  | fuel + 1, row, s =>
    if row = col then do
      let nodes ← s.nodes.uncover col
      .ok (false, { s with nodes })
    else do
      let nodes ← s.nodes.coverOthers row
      let (found, s) ← deeper { s with stack := s.stack ++ [row], nodes }
      if found then .ok (true, s)
      else do
        let nodes ← s.nodes.uncoverOthers row
        tryRows deeper col fuel (nodes.down row) { s with stack := s.stack.dropLast, nodes }

/-- The first argument bounds the depth of the recursion. -/
def solve : ℕ → SudokuSolver → Except Fault (Bool × SudokuSolver)
  | 0, _ => .error .endless
  | depth + 1, s =>
    if s.nodes.left s.root = s.root then do
      let s ← runAll writeRow s s.stack
      .ok (true, s)
    else do
      let col ← s.getMinColumn
      let nodes ← s.nodes.cover col
      tryRows (solve depth) col rounds (nodes.down col) { s with nodes }

end Search

end SudokuSolver

def kNoSolution : List UInt8 := "NoSolution".toList.map fun c => c.toNat.toUInt8

/-- A byte that is negative as a `char` is no digit either. -/
def solveSudoku (puzzle : List UInt8) : Except Fault (List UInt8) :=
  if puzzle.length = kCells then
    let board : ℕ → ℤ := fun i => (puzzle.getD i 0).toNat - 48
    if ∀ i < kCells, 0 ≤ board i ∧ board i ≤ 9 then do
      let s ← SudokuSolver.create fun i => (board i).toNat
      let (found, s) ← s.solve rounds
      .ok (if found then (List.range kCells).map fun i => (s.inout i + 48).toUInt8 else kNoSolution)
    else .ok kNoSolution
  else .error .assertion

end CppBase.Muduo.Sudoku
