/-!
# Constraint problems

A problem over states `σ` assigns values `α` to variables `ν`.  It is given by what can be asked of a state: the
open variables in their order, the values that a variable may still take, the states after assigning and after
clearing a variable, and whether the assignment is complete.

* `admits` is a last look at one value before it is tried, and accepts everything unless a problem says otherwise.
* `ClearUndoesAssign`: clearing a variable gives back the state in which it was open.
-/

namespace TreeSearch

structure Problem (σ ν α : Type) where
  openVars : σ → List ν
  domain : σ → ν → List α
  assign : σ → ν → α → σ
  clear : σ → ν → σ
  complete : σ → Bool
  admits : σ → ν → α → Bool := fun _ _ _ => true

namespace Problem

variable {σ ν α : Type}

/-- The same problem without the values of a list. -/
def vetoing [BEq α] (p : Problem σ ν α) (veto : List α) : Problem σ ν α :=
  { p with admits := fun s v x => !veto.contains x && p.admits s v x }

/-- The same problem, taken for complete also where `stop` holds. -/
def stoppingWhen (p : Problem σ ν α) (stop : σ → Bool) : Problem σ ν α :=
  { p with complete := fun s => p.complete s || stop s }

/-- Clearing an open variable undoes the assignment of a value of its domain. -/
def ClearUndoesAssign (p : Problem σ ν α) : Prop :=
  ∀ s, ∀ v ∈ p.openVars s, ∀ x ∈ p.domain s v, p.clear (p.assign s v x) v = s

end Problem

end TreeSearch
