import TreeSearch.Constraint.Problem

/-!
# Networks of pairwise constraints

A network has variables in a fixed order, a list of base values for each, and a relation that says which values of
two variables go together; of two different variables it does not matter which one is named first.

* `Fills a f`: the total assignment `f` keeps what the partial assignment `a` gives, and completes it correctly.
* `Presents p value`: the problem `p`, whose states are read through `value`, is the network; the domain of an
  open variable lists, in any order, its base values that go with everything assigned elsewhere.
* `Network.problem`: the problem whose states are the partial assignments themselves.
-/

namespace TreeSearch

/-- What is assigned to each variable so far. -/
abbrev Assignment (ν α : Type) := ν → Option α

namespace Assignment

variable {ν α : Type} [DecidableEq ν]

def set (a : Assignment ν α) (v : ν) (x : α) : Assignment ν α := fun u => if u = v then some x else a u

def unset (a : Assignment ν α) (v : ν) : Assignment ν α := fun u => if u = v then none else a u

@[simp] theorem set_self (a : Assignment ν α) (v : ν) (x : α) : a.set v x v = some x := by simp [set]

theorem set_of_ne (a : Assignment ν α) {u v : ν} (h : u ≠ v) (x : α) : a.set v x u = a u := by simp [set, h]

/-- Clearing a variable undoes its assignment if it was open before. -/
theorem unset_set {a : Assignment ν α} {v : ν} (h : a v = none) (x : α) : (a.set v x).unset v = a := by
  funext u
  by_cases hu : u = v
  · simp [unset, hu, h]
  · simp [unset, set, hu]

end Assignment

structure Network (ν α : Type) where
  vars : List ν
  base : ν → List α
  compatible : ν → α → ν → α → Prop
  accepts : ν → α → Bool := fun _ _ => true
  nodup : vars.Nodup
  symm : ∀ u x v y, u ≠ v → compatible u x v y → compatible v y u x

namespace Network

variable {σ ν α : Type}

/-- The value `x` of `v` goes with everything that `a` assigns to other variables. -/
def Fits (n : Network ν α) (a : Assignment ν α) (v : ν) (x : α) : Prop :=
  ∀ u ∈ n.vars, u ≠ v → ∀ y, a u = some y → n.compatible v x u y

/-- A correct completion of a partial assignment.  What is assigned already need not be correct. -/
structure Fills (n : Network ν α) (a f : Assignment ν α) : Prop where
  total : ∀ v ∈ n.vars, (f v).isSome
  keeps : ∀ v ∈ n.vars, ∀ x, a v = some x → f v = some x
  filled : ∀ v ∈ n.vars, a v = none → ∀ x, f v = some x → x ∈ n.base v ∧ n.accepts v x = true ∧ n.Fits f v x

/-- The problem asks and changes what the network says, in states read through `value`. -/
structure Presents [DecidableEq ν] (n : Network ν α) (p : Problem σ ν α) (value : σ → Assignment ν α) : Prop where
  openVars_eq : ∀ s, p.openVars s = n.vars.filter fun v => (value s v).isNone
  mem_domain : ∀ s, ∀ v ∈ p.openVars s, ∀ x, x ∈ p.domain s v ↔ x ∈ n.base v ∧ n.Fits (value s) v x
  value_assign : ∀ s, ∀ v ∈ n.vars, ∀ x ∈ n.base v, value (p.assign s v x) = (value s).set v x
  value_clear : ∀ s, ∀ v ∈ n.vars, value (p.clear s v) = (value s).unset v
  complete_iff : ∀ s, p.complete s = true ↔ ∀ v ∈ n.vars, (value s v).isSome

/-- The problem's last look at a value is the network's, whatever else is assigned. -/
def Checks (n : Network ν α) (p : Problem σ ν α) : Prop := ∀ s v x, p.admits s v x = n.accepts v x

/-! ### The network as a problem -/

section

variable [DecidableEq ν]

/-- Whether a value goes with everything assigned to other variables. -/
def fits (n : Network ν α) [∀ u x v y, Decidable (n.compatible u x v y)] (a : Assignment ν α) (v : ν) (x : α) : Bool :=
  n.vars.all fun u => u = v || (a u).all fun y => n.compatible v x u y

theorem fits_iff (n : Network ν α) [∀ u x v y, Decidable (n.compatible u x v y)] (a : Assignment ν α) (v : ν) (x : α) :
    n.fits a v x = true ↔ n.Fits a v x := by
  simp only [fits, Fits, List.all_eq_true, Bool.or_eq_true, decide_eq_true_eq, Option.all_eq_true]
  exact forall_congr' fun u => forall_congr' fun _ => Decidable.or_iff_not_imp_left

/-- The problem whose states are the partial assignments. -/
def problem (n : Network ν α) [∀ u x v y, Decidable (n.compatible u x v y)] : Problem (Assignment ν α) ν α where
  openVars a := n.vars.filter fun v => (a v).isNone
  domain a v := (n.base v).filter fun x => n.fits a v x
  assign := Assignment.set
  clear := Assignment.unset
  complete a := n.vars.all fun v => (a v).isSome
  admits _ v x := n.accepts v x

theorem presents_problem (n : Network ν α) [∀ u x v y, Decidable (n.compatible u x v y)] : n.Presents n.problem id where
  openVars_eq _ := rfl
  mem_domain a v _ x := by simp [problem, fits_iff]
  value_assign _ _ _ _ _ := rfl
  value_clear _ _ _ := rfl
  complete_iff a := by simp [problem]

theorem checks_problem (n : Network ν α) [∀ u x v y, Decidable (n.compatible u x v y)] : n.Checks n.problem :=
  fun _ _ _ => rfl

end

end Network

end TreeSearch
