import TreeSearch.Decimal.Fixed
import TreeSearch.Duration

/-!
# What backtracking counts

The states entered, the assignments taken back, and the greatest depth at which a state was entered.  Efforts add
up: `a + b` is the effort of two searches made one after the other.
-/

namespace TreeSearch

structure Effort where
  nodes : Nat := 0
  backtracks : Nat := 0
  maxDepth : Nat := 0
  deriving DecidableEq, Repr

namespace Effort

instance : Zero Effort := ⟨{}⟩

instance : Add Effort := ⟨fun a b => ⟨a.nodes + b.nodes, a.backtracks + b.backtracks, max a.maxDepth b.maxDepth⟩⟩

/-- One state entered at a depth. -/
def node (depth : Nat) : Effort := { nodes := 1, maxDepth := depth }

/-- One assignment taken back. -/
def backtrack : Effort := { backtracks := 1 }

@[simp] theorem zero_nodes : (0 : Effort).nodes = 0 := rfl
@[simp] theorem zero_backtracks : (0 : Effort).backtracks = 0 := rfl
@[simp] theorem zero_maxDepth : (0 : Effort).maxDepth = 0 := rfl
@[simp] theorem add_nodes (a b : Effort) : (a + b).nodes = a.nodes + b.nodes := rfl
@[simp] theorem add_backtracks (a b : Effort) : (a + b).backtracks = a.backtracks + b.backtracks := rfl
@[simp] theorem add_maxDepth (a b : Effort) : (a + b).maxDepth = max a.maxDepth b.maxDepth := rfl

/-- The report on a run that took `time`; seconds have three places. -/
def report (e : Effort) (time : Duration) : String :=
  "Backtracking Solver Statistics:\n" ++
  "- Nodes visited: " ++ toString e.nodes ++ "\n" ++
  "- Backtracks: " ++ toString e.backtracks ++ "\n" ++
  "- Max depth: " ++ toString e.maxDepth ++ "\n" ++
  "- Total time: " ++ Decimal.fixed 3 time.toSeconds ++ " seconds"

end Effort

end TreeSearch
