/-!
# Sudoku boards

Eighty-one cells, numbered row by row; a cell holds a number, and zero stands for a blank.

* The houses are the nine rows, the nine columns and the nine blocks of three by three cells.
* `peers i` lists the row, the column and the block of cell `i`; the cell itself is in each of the three.
* (what a peer is) `mem_peers`: two cells are peers iff they share the row, the column or the block.
* `candidates? b i` are the digits that no peer of `i` holds.  Digits end at nine: where a peer holds a greater
  number there is no answer.
* `isSolved` holds iff every house holds nine different digits.
-/

namespace TreeSearch.Sudoku

abbrev Cell := Fin 81

structure Board where
  cells : Vector Nat 81
  deriving DecidableEq, Repr

/-! ### Houses -/

/-- The cell in a row and a column. -/
def cellAt (row col : Fin 9) : Cell := ⟨9 * row + col, by omega⟩

def rowOf (i : Cell) : Fin 9 := ⟨i / 9, by omega⟩

def colOf (i : Cell) : Fin 9 := ⟨i % 9, by omega⟩

/-- Blocks are numbered row by row. -/
def blockOf (i : Cell) : Fin 9 := ⟨i / 27 * 3 + i % 9 / 3, by omega⟩

def row (r : Fin 9) : List Cell := (List.finRange 9).map fun c => cellAt r c

def column (c : Fin 9) : List Cell := (List.finRange 9).map fun r => cellAt r c

/-- The cells of a block, row by row. -/
def block (k : Fin 9) : List Cell :=
  (List.finRange 9).map fun (i : Fin 9) => cellAt ⟨k / 3 * 3 + i / 3, by omega⟩ ⟨k % 3 * 3 + i % 3, by omega⟩

def houses : List (List Cell) := (List.finRange 9).flatMap fun k => [row k, column k, block k]

def peers (i : Cell) : List Cell := row (rowOf i) ++ column (colOf i) ++ block (blockOf i)

private theorem cellAt_rowOf_colOf (i : Cell) : cellAt (rowOf i) (colOf i) = i := by
  ext
  simp only [cellAt, rowOf, colOf]
  omega

theorem mem_row {r : Fin 9} {j : Cell} : j ∈ row r ↔ rowOf j = r := by
  simp only [row, List.mem_map, List.mem_finRange, true_and]
  constructor
  · rintro ⟨c, rfl⟩
    ext
    simp only [cellAt, rowOf]
    omega
  · rintro rfl
    exact ⟨colOf j, cellAt_rowOf_colOf j⟩

theorem mem_column {c : Fin 9} {j : Cell} : j ∈ column c ↔ colOf j = c := by
  simp only [column, List.mem_map, List.mem_finRange, true_and]
  constructor
  · rintro ⟨r, rfl⟩
    ext
    simp only [cellAt, colOf]
    omega
  · rintro rfl
    exact ⟨rowOf j, cellAt_rowOf_colOf j⟩

theorem mem_block {k : Fin 9} {j : Cell} : j ∈ block k ↔ blockOf j = k := by
  simp only [block, List.mem_map, List.mem_finRange, true_and]
  constructor
  · rintro ⟨i, rfl⟩
    ext
    simp only [cellAt, blockOf]
    omega
  · rintro rfl
    refine ⟨⟨j / 9 % 3 * 3 + j % 3, by omega⟩, ?_⟩
    ext
    simp only [cellAt, blockOf]
    omega

theorem mem_peers {i j : Cell} :
    j ∈ peers i ↔ rowOf j = rowOf i ∨ colOf j = colOf i ∨ blockOf j = blockOf i := by
  simp [peers, mem_row, mem_column, mem_block]

namespace Board

instance : GetElem Board Cell Nat fun _ _ => True where
  getElem b i _ := b.cells[i]

/-- Writes a number into a cell. -/
def put (b : Board) (i : Cell) (x : Nat) : Board := ⟨b.cells.set i x⟩

/-- Empties a cell. -/
def erase (b : Board) (i : Cell) : Board := b.put i 0

@[ext] theorem ext {a b : Board} (h : ∀ i : Cell, a[i] = b[i]) : a = b := by
  cases a
  cases b
  congr 1
  ext i hi
  exact h ⟨i, hi⟩

theorem getElem_put (b : Board) (i j : Cell) (x : Nat) : (b.put i x)[j] = if i = j then x else b[j] := by
  show (b.cells.set i x)[j] = _
  simp only [Fin.getElem_fin, Vector.getElem_set, Fin.ext_iff]
  rfl

/-- The blank cells, ascending. -/
def blanks (b : Board) : List Cell := (List.finRange 81).filter fun i => b[i] = 0

def isFull (b : Board) : Bool := !b.cells.contains 0

/-- The digits that no peer of the cell holds, ascending. -/
def candidates (b : Board) (i : Cell) : List Nat :=
  let taken := (peers i).map fun j => b[j]
  (List.range' 1 9).filter fun x => !taken.contains x

theorem mem_candidates {b : Board} {i : Cell} {x : Nat} :
    x ∈ b.candidates i ↔ (1 ≤ x ∧ x ≤ 9) ∧ ∀ j ∈ peers i, b[j] ≠ x := by
  simp [candidates, List.mem_range'_1, Nat.lt_succ_iff]

/-- Whether every peer of the cell is blank or holds a digit. -/
def readable (b : Board) (i : Cell) : Bool := (peers i).all fun j => b[j] ≤ 9

/-- The candidates of a cell whose peers hold nothing greater than nine. -/
def candidates? (b : Board) (i : Cell) : Option (List Nat) :=
  if b.readable i then some (b.candidates i) else none

/-- Whether the numbers are pairwise different digits. -/
def distinctDigits : List Nat → Bool
  | [] => true
  | x :: xs => 1 ≤ x && x ≤ 9 && !xs.contains x && distinctDigits xs

def isSolved (b : Board) : Bool := houses.all fun house => distinctDigits (house.map fun i => b[i])

end Board

end TreeSearch.Sudoku
