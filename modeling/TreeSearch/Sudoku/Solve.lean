import TreeSearch.Constraint.Backtracking
import TreeSearch.Constraint.Recorded
import TreeSearch.Sudoku.Board

/-!
# Sudoku as a constraint problem

The blank cells are the open variables, and a cell may take its candidates.

* On a board of digits and blanks `problem` is all there is to a search.
* Where a cell holds a number above nine, a search that needs the candidates of one of its peers has no answer.
  `unreadable` tells where that happens: it holds if the variable order needs such candidates before it assigns the
  next cell.  The search made by `solve?` stops there, keeps what was counted, and gives back no board.
-/

namespace TreeSearch.Sudoku

def problem : Problem Board Cell Nat where
  openVars := Board.blanks
  domain := Board.candidates
  assign := Board.put
  clear := Board.erase
  complete := Board.isFull

namespace Board

/-- The cells whose candidates a search looks at before it assigns the next cell. -/
def inspected (b : Board) : VariableOrder → List Cell
  | .smallestDomain => b.blanks
  | .natural => b.blanks.take 1

/-- Whether a search cannot go on because it needs candidates that cannot be read. -/
def unreadable (order : VariableOrder) (b : Board) : Bool := !(b.inspected order).all b.readable

/-- The cell that a variable order chooses.  The natural order looks at no candidates; the other one has no answer
where they cannot be read. -/
def next? (b : Board) (order : VariableOrder) : Option (Option Cell) :=
  if order = .smallestDomain ∧ unreadable order b then none else some (order.next problem b)

/-- A run of the solver on a board, without the values of `veto`, and the changes it made.  The solver keeps the
effort also where there is no answer; the state that was entered last counts as well. -/
def solve? (b : Board) (veto : List Nat) (solver : Solver) : Option (Run (Recorded Board Cell Nat)) × Solver :=
  let stopping := (problem.stoppingWhen (unreadable solver.order)).vetoing veto
  let (run?, solver) := solver.solve stopping.recorded (problem.levels b) ⟨b, []⟩
  match run? with
  | none => (none, solver)
  | some run =>
    if run.solved && !run.state.state.isFull then
      let depth := b.blanks.length - run.state.state.blanks.length
      (none, { solver with effort := run.effort + .node depth })
    else (some run, solver)

end Board

end TreeSearch.Sudoku
