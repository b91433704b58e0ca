import TreeSearch.Constraint.Problem

/-!
# The changes made to a state

`Problem.recorded` is a problem whose states remember, beside the state, every assignment and every clearing that
led to them.  Questions are answered from the state alone, so a search makes the same choices with and without the
record.
-/

namespace TreeSearch

inductive Change (ν α : Type) where
  | assigned (v : ν) (x : α)
  | cleared (v : ν)
  deriving DecidableEq, Repr

/-- A state and the changes that led to it, the latest one first. -/
structure Recorded (σ ν α : Type) where
  state : σ
  latest : List (Change ν α) := []
  deriving DecidableEq, Repr

/-- The changes in the order in which they were made. -/
def Recorded.changes {σ ν α : Type} (r : Recorded σ ν α) : List (Change ν α) := r.latest.reverse

def Problem.recorded {σ ν α : Type} (p : Problem σ ν α) : Problem (Recorded σ ν α) ν α where
  openVars r := p.openVars r.state
  domain r v := p.domain r.state v
  assign r v x := ⟨p.assign r.state v x, .assigned v x :: r.latest⟩
  clear r v := ⟨p.clear r.state v, .cleared v :: r.latest⟩
  complete r := p.complete r.state
  admits r v x := p.admits r.state v x

end TreeSearch
