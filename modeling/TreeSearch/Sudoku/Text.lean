import TreeSearch.Error
import TreeSearch.Sudoku.Board
import TreeSearch.Text.Blank

/-!
# Boards as text

* Read: eighty-one characters row by row, blanks around them left out; the characters `1` to `9` stand for
  themselves and every other one for a blank cell.
* Written: nine lines, a point for a blank cell, bars between the blocks, and a rule between the bands.
-/

namespace TreeSearch.Sudoku.Board

/-- The number that a character stands for. -/
def cellOfChar (c : Char) : Nat := if '1' ≤ c ∧ c ≤ '9' then c.toNat - '0'.toNat else 0

def ofText (text : String) : Except Error Board :=
  let cs := Text.trim text.toList
  if h : cs.length = 81 then .ok ⟨⟨(cs.map cellOfChar).toArray, by simpa using h⟩⟩
  else .error (.invalidPuzzle ("expected 81 cells, found " ++ toString cs.length))

def symbol (x : Nat) : List Char := if x = 0 then ['.'] else Nat.toDigits 10 x

/-- One row, with a bar before the fourth and the seventh cell, and the end of the line. -/
def rowText (b : Board) (r : Fin 9) : List Char :=
  ((List.finRange 9).flatMap fun c =>
    (if c = 3 ∨ c = 6 then ['|', ' '] else []) ++ symbol b[cellAt r c] ++ [' ']) ++ ['\n']

/-- The line between two bands of blocks. -/
def ruleText : List Char := "------+-------+------\n".toList

/-- The rows, with a rule before the fourth and the seventh. -/
def text (b : Board) : String :=
  String.ofList ((List.finRange 9).flatMap fun r => (if r = 3 ∨ r = 6 then ruleText else []) ++ b.rowText r)

end TreeSearch.Sudoku.Board
