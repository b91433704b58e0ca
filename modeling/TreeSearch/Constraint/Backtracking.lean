import TreeSearch.Constraint.Effort
import TreeSearch.Constraint.VariableOrder

/-!
# Chronological backtracking

Assigns one open variable after the other and takes the last assignment back when the rest cannot be completed.

* A complete state ends the run; it is looked at before any variable, and does not count.
* The values of a variable are tried in ascending order; they are those of its domain when the state is entered.
* A run has a limit on the number of nested assignments; `none` means that the limit was reached.  With one level
  more than there are open variables no problem reaches it whose assignments close the variable they assign.
-/

namespace TreeSearch

/-- How a run ended: the verdict, the state it left, and what it cost. -/
structure Run (σ : Type) where
  solved : Bool
  state : σ
  effort : Effort
  deriving DecidableEq, Repr

/-- The run with the effort made before it. -/
def Run.after {σ : Type} (r : Run σ) (effort : Effort) : Run σ := { r with effort := effort + r.effort }

@[simp] theorem Run.solved_after {σ : Type} (r : Run σ) (e : Effort) : (r.after e).solved = r.solved := rfl
@[simp] theorem Run.state_after {σ : Type} (r : Run σ) (e : Effort) : (r.after e).state = r.state := rfl
@[simp] theorem Run.effort_after {σ : Type} (r : Run σ) (e : Effort) : (r.after e).effort = e + r.effort := rfl

namespace Problem

variable {σ ν α : Type}

/-- Tries the values for `v` in turn: `descend` goes on from the state with the value assigned, and after a failure
the variable is cleared again. -/
def tryValues (p : Problem σ ν α) (v : ν) (descend : σ → Option (Run σ)) : List α → σ → Option (Run σ)
  | [], s => some ⟨false, s, 0⟩
  | x :: xs, s =>
    if p.admits s v x then do
      let r ← descend (p.assign s v x)
      if r.solved then some r
      else
        let rest ← p.tryValues v descend xs (p.clear r.state v)
        some (rest.after (r.effort + .backtrack))
    else p.tryValues v descend xs s

variable [LE α] [DecidableLE α]

/-- Searches on from a state entered at `depth`, with at most `levels` nested states. -/
def branch (p : Problem σ ν α) (order : VariableOrder) : Nat → Nat → σ → Option (Run σ)
  | 0, _, _ => none
  | levels + 1, depth, s =>
    if p.complete s then some ⟨true, s, 0⟩
    else
      match order.next p s with
      | none => some ⟨false, s, .node depth⟩
      | some v => do
        let r ← p.tryValues v (p.branch order levels (depth + 1)) (p.domain s v).mergeSort s
        some (r.after (.node depth))

/-- One level more than there are open variables. -/
def levels (p : Problem σ ν α) (s : σ) : Nat := (p.openVars s).length + 1

end Problem

/-- A variable order with the effort of its last run. -/
structure Solver where
  order : VariableOrder := default
  effort : Effort := 0
  deriving DecidableEq, Repr

/-- Searches for a complete state, within a number of levels, and leaves the solver with the effort of this run. -/
def Solver.solve {σ ν α : Type} [LE α] [DecidableLE α] (solver : Solver) (p : Problem σ ν α) (levels : Nat)
    (s : σ) : Option (Run σ) × Solver :=
  match p.branch solver.order levels 0 s with
  | none => (none, solver)
  | some r => (some r, { solver with effort := r.effort })

end TreeSearch
