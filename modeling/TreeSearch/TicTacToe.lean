import TreeSearch.Game.Basic

/-!
# Noughts and crosses

Nine cells, numbered row by row; plus writes crosses and minus noughts.  A side wins with three of its own marks in
a line, and the game is over when somebody has won or no cell is free.

* Any arrangement of marks is a position, reachable or not.  If both sides own a line, the first one in the order
  of `lines` counts.
* A cell is playable iff it exists, it is free, and nobody has won.
-/

namespace TreeSearch.TicTacToe

/-- The marks and the side to move. -/
structure Position where
  cells : Vector (Option Side) 9
  turn : Side
  deriving DecidableEq, Repr

/-- The rows, the columns and the two diagonals. -/
def lines : List (Nat × Nat × Nat) :=
  [(0, 1, 2), (3, 4, 5), (6, 7, 8), (0, 3, 6), (1, 4, 7), (2, 5, 8), (0, 4, 8), (2, 4, 6)]

namespace Position

/-- The empty grid, with plus to move. -/
def start : Position := ⟨Vector.replicate 9 none, .plus⟩

instance : Inhabited Position := ⟨start⟩

/-- The mark in cell `i`; there is none in a free cell, and none outside the grid. -/
def mark? (p : Position) (i : Nat) : Option Side := (p.cells[i]?).join

/-- The number of marks. -/
def played (p : Position) : Nat := p.cells.toList.countP Option.isSome

/-- The side that owns all three cells of a line. -/
def owner? (p : Position) (line : Nat × Nat × Nat) : Option Side :=
  match p.mark? line.1 with
  | none => none
  | some side => if p.mark? line.2.1 = some side ∧ p.mark? line.2.2 = some side then some side else none

def winner (p : Position) : Option Side := lines.findSome? p.owner?

def isFull (p : Position) : Bool := p.cells.toList.all Option.isSome

def terminal (p : Position) : Bool := p.winner.isSome || p.isFull

/-- Whether the side to move may mark cell `i`. -/
def playable (p : Position) (i : Nat) : Bool := i < 9 && p.mark? i = none && p.winner = none

/-- The playable cells, ascending. -/
def moves (p : Position) : List Nat :=
  if p.winner.isSome then [] else (List.range 9).filter fun i => p.mark? i = none

/-- Marks cell `i` for the side to move. -/
def place (p : Position) (i : Nat) : Position := ⟨p.cells.setIfInBounds i (some p.turn), p.turn.opponent⟩

theorem mark?_place {p : Position} {i : Nat} (h : i < 9) (j : Nat) :
    (p.place i).mark? j = if i = j then some p.turn else p.mark? j := by
  simp only [place, mark?, Vector.getElem?_setIfInBounds]
  split <;> simp_all

def step (p : Position) (i : Nat) : Except Error Position :=
  if p.playable i then .ok (p.place i)
  else .error (.illegalMove ("cell " ++ toString i ++ " is not playable for " ++ p.turn.text))

/-! ### The grid as text -/

def symbol : Option Side → Char
  | some .plus => 'X'
  | some .minus => 'O'
  | none => '.'

/-- One row of the grid, its symbols parted by blanks, and the end of the line. -/
def rowText (p : Position) (row : Fin 3) : List Char :=
  let shown (col : Nat) := symbol (p.mark? (3 * row + col))
  [shown 0, ' ', shown 1, ' ', shown 2, '\n']

def text (p : Position) : String := String.ofList ((List.finRange 3).flatMap p.rowText)

end Position

/-- The rules as a game whose moves are cell numbers. -/
def game : Game Position Nat where
  moves := Position.moves
  step := Position.step
  terminal := Position.terminal
  winner := Position.winner
  turn := Position.turn

end TreeSearch.TicTacToe
