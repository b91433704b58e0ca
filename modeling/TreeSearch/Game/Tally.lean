/-!
# What a search counts

The positions visited, the cut-offs made, and whether an unfinished position was scored because the depth ran out.
Tallies add up: `a + b` is the tally of two searches made one after the other.
-/

namespace TreeSearch

structure Tally where
  nodes : Nat := 0
  cutoffs : Nat := 0
  horizon : Bool := false
  deriving DecidableEq, Repr

namespace Tally

instance : Zero Tally := ⟨{}⟩

instance : Add Tally := ⟨fun a b => ⟨a.nodes + b.nodes, a.cutoffs + b.cutoffs, a.horizon || b.horizon⟩⟩

/-- One position visited. -/
def node : Tally := { nodes := 1 }

/-- One cut-off. -/
def cutoff : Tally := { cutoffs := 1 }

/-- An unfinished position scored. -/
def horizonReached : Tally := { horizon := true }

@[simp] theorem zero_nodes : (0 : Tally).nodes = 0 := rfl
@[simp] theorem zero_cutoffs : (0 : Tally).cutoffs = 0 := rfl
@[simp] theorem zero_horizon : (0 : Tally).horizon = false := rfl
@[simp] theorem add_nodes (a b : Tally) : (a + b).nodes = a.nodes + b.nodes := rfl
@[simp] theorem add_cutoffs (a b : Tally) : (a + b).cutoffs = a.cutoffs + b.cutoffs := rfl
@[simp] theorem add_horizon (a b : Tally) : (a + b).horizon = (a.horizon || b.horizon) := rfl

@[ext] theorem ext {a b : Tally} (hn : a.nodes = b.nodes) (hc : a.cutoffs = b.cutoffs)
    (hh : a.horizon = b.horizon) : a = b := by cases a; cases b; simp_all

@[simp] theorem zero_add (a : Tally) : 0 + a = a := by ext <;> simp
@[simp] theorem add_zero (a : Tally) : a + 0 = a := by ext <;> simp
theorem add_assoc (a b c : Tally) : a + b + c = a + (b + c) := by ext <;> simp [Nat.add_assoc, Bool.or_assoc]

end Tally

end TreeSearch
