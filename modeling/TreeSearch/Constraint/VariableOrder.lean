import TreeSearch.Constraint.Problem

/-!
# Which variable comes next

* `natural` takes the first open variable.
* `smallestDomain` takes one with the fewest values left, the first of several.
* (open variables) `next_mem`, `next_eq_none_iff`: either way it is an open variable, and there is one iff any is open.
-/

namespace TreeSearch

inductive VariableOrder where
  | smallestDomain
  | natural
  deriving DecidableEq, Repr

instance : Inhabited VariableOrder := ⟨.smallestDomain⟩

/-- Goes on from `best`, which has size `n`, and replaces it only by an entry of a strictly smaller size. -/
def leastFrom {ν : Type} (size : ν → Nat) (n : Nat) (best : ν) : List ν → ν
  | [] => best
  | v :: vs => if size v < n then leastFrom size (size v) v vs else leastFrom size n best vs

/-- The variable to assign next, if one is open. -/
def VariableOrder.next {σ ν α : Type} (order : VariableOrder) (p : Problem σ ν α) (s : σ) : Option ν :=
  match order, p.openVars s with
  | _, [] => none
  | .natural, v :: _ => some v
  | .smallestDomain, v :: vs =>
    let size v := (p.domain s v).length
    some (leastFrom size (size v) v vs)

variable {σ ν α : Type}

private theorem leastFrom_mem (size : ν → Nat) (k : Nat) (best : ν) (vs : List ν) :
    leastFrom size k best vs ∈ best :: vs := by
  induction vs generalizing k best with
  | nil => simp [leastFrom]
  | cons v vs ih =>
    unfold leastFrom
    split
    · exact List.mem_cons_of_mem _ (ih _ _)
    · have h := ih k best
      rw [List.mem_cons] at h ⊢
      exact h.imp_right (List.mem_cons_of_mem _)

namespace VariableOrder

theorem next_mem {order : VariableOrder} {p : Problem σ ν α} {s : σ} {v : ν} (h : order.next p s = some v) :
    v ∈ p.openVars s := by
  unfold next at h
  split at h
  · cases h
  · rename_i heq
    rw [heq, ← Option.some.inj h]
    exact List.mem_cons_self ..
  · rename_i heq
    rw [heq, ← Option.some.inj h]
    exact leastFrom_mem _ _ _ _

theorem next_eq_none_iff {order : VariableOrder} {p : Problem σ ν α} {s : σ} :
    order.next p s = none ↔ p.openVars s = [] := by
  unfold next
  cases p.openVars s <;> cases order <;> simp

theorem next_natural (p : Problem σ ν α) (s : σ) : natural.next p s = (p.openVars s).head? := by
  unfold next
  cases p.openVars s <;> rfl

end VariableOrder

end TreeSearch
