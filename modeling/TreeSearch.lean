import TreeSearch.Error
import TreeSearch.Duration
import TreeSearch.Game.Engine
import TreeSearch.Game.Play
import TreeSearch.Game.Report
import TreeSearch.Game.Value
import TreeSearch.TicTacToe
import TreeSearch.Constraint.Backtracking
import TreeSearch.Constraint.Recorded
import TreeSearch.Constraint.Network
import TreeSearch.Sudoku.Text
import TreeSearch.Sudoku.Solve
import TreeSearch.Proofs.Game.Order
import TreeSearch.Proofs.Game.Pruning
import TreeSearch.Proofs.Game.Secured
import TreeSearch.Proofs.TicTacToe.Rules
import TreeSearch.Proofs.TicTacToe.Turns
import TreeSearch.Proofs.TicTacToe.Reached
import TreeSearch.Proofs.Constraint.Completion
import TreeSearch.Proofs.Game.Outcome
import TreeSearch.Proofs.Game.Run
import TreeSearch.Proofs.Constraint.Simulation
import TreeSearch.Proofs.Constraint.Course
import TreeSearch.Proofs.Constraint.Discipline
import TreeSearch.Proofs.Sudoku.Filling
import TreeSearch.Proofs.Sudoku.Solution
import TreeSearch.Proofs.Game.Horizon
import TreeSearch.Proofs.Game.Finishing
import TreeSearch.Proofs.Game.Correspondence
import TreeSearch.Proofs.Game.Mirror
import TreeSearch.Proofs.Game.Rescaling
import TreeSearch.Proofs.Constraint.Least
import TreeSearch.Proofs.Game.Protocol
import TreeSearch.Proofs.Game.Reuse
import TreeSearch.Proofs.Constraint.Reuse
import TreeSearch.Proofs.Game.Calls
import TreeSearch.Proofs.Game.Savings
import TreeSearch.Proofs.Game.Refusal
import TreeSearch.Proofs.Game.Reordering
import TreeSearch.Proofs.Constraint.Choice
import TreeSearch.Proofs.Constraint.Accounting
import TreeSearch.Proofs.Constraint.Entered
import TreeSearch.Proofs.Constraint.Termination
import TreeSearch.Proofs.Constraint.Listing
import TreeSearch.Proofs.Sudoku.RoundTrip
import TreeSearch.Proofs.Sudoku.Solved
import TreeSearch.Proofs.Sudoku.Upkeep
