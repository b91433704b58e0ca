import TreeSearch.Proofs.Constraint.Discipline

/-!
# The order in which a domain lists its values

Problems that differ in the order of the values in their domains are searched alike, step by step.

* `Problem.relisted`: the same problem with its domains listed in another way.
* (choice) `VariableOrder.next_congr`: the next variable is found from the open variables and the sizes of their
  domains.
* (values) `mergeSort_eq_of_perm`: the values of a variable are tried in the same order, since they are sorted first.
* (every run) `Solver.solve_relisted`: nothing that a run returns or records depends on the listing.
-/

namespace TreeSearch

variable {σ ν α : Type}

/-- The choice looks at the open variables and at the sizes of their domains, and at nothing else. -/
theorem VariableOrder.next_congr {τ β : Type} {p : Problem σ ν α} {q : Problem τ ν β} {s : σ} {t : τ}
    (hopen : q.openVars t = p.openVars s) (hsize : ∀ v, (q.domain t v).length = (p.domain s v).length)
    (order : VariableOrder) : order.next q t = order.next p s := by
  unfold next
  rw [hopen]
  simp only [hsize]

/-- Rearranged lists are the same once they are sorted. -/
theorem mergeSort_eq_of_perm [LinearOrder α] {xs ys : List α} (h : xs.Perm ys) : xs.mergeSort = ys.mergeSort := by
  have hperm : xs.mergeSort.Perm ys.mergeSort :=
    (List.mergeSort_perm xs _).trans (h.trans (List.mergeSort_perm ys _).symm)
  exact hperm.eq_of_pairwise' (List.pairwise_mergeSort' (· ≤ ·) xs) (List.pairwise_mergeSort' (· ≤ ·) ys)

namespace Problem

/-- The same problem with its domains listed as `arrange` lists them. -/
def relisted (p : Problem σ ν α) (arrange : σ → ν → List α) : Problem σ ν α := { p with domain := arrange }

variable [LinearOrder α] {p : Problem σ ν α} {arrange : σ → ν → List α}

private theorem simulates_relisted (harrange : ∀ s v, (arrange s v).Perm (p.domain s v)) (order : VariableOrder) :
    (p.relisted arrange).Simulates order p Eq where
  complete_eq := by rintro s _ rfl; rfl
  next_eq := by
    rintro s _ rfl
    have hopen : (p.relisted arrange).openVars s = p.openVars s := rfl
    exact VariableOrder.next_congr hopen (fun v => (harrange s v).length_eq) order
  values_eq := by
    rintro s _ rfl v
    exact mergeSort_eq_of_perm (harrange s v)
  admits_eq := by rintro s _ rfl v x; rfl
  assign := by rintro _ _ - v x - s _ rfl; rfl
  clear := by rintro s _ rfl v; rfl

private theorem branch_relisted (harrange : ∀ s v, (arrange s v).Perm (p.domain s v)) (order : VariableOrder)
    (levels depth : Nat) (s : σ) :
    (p.relisted arrange).branch order levels depth s = p.branch order levels depth s := by
  have halike := (simulates_relisted harrange order).branch levels depth (s := s) rfl
  simpa using Run.eq_map_of_alike (f := id) (fun _ _ h => h) halike

end Problem

namespace Solver

variable [LinearOrder α] {p : Problem σ ν α} {arrange : σ → ν → List α}

/-- However the domains list their values, a run ends with the same verdict, in the same state and with the same
effort, and it makes the same changes on the way; or both runs reach the limit. -/
theorem solve_relisted (harrange : ∀ s v, (arrange s v).Perm (p.domain s v)) (solver : Solver) (levels : Nat) (s : σ) :
    solver.solve (p.relisted arrange) levels s = solver.solve p levels s ∧
      solver.solve (p.relisted arrange).recorded levels ⟨s, []⟩ = solver.solve p.recorded levels ⟨s, []⟩ := by
  -- recording does not look at the domains
  have hrecorded : (p.relisted arrange).recorded = p.recorded.relisted fun t => arrange t.state := rfl
  have harrange' : ∀ (t : Recorded σ ν α) (v : ν), (arrange t.state v).Perm (p.recorded.domain t v) :=
    fun t => harrange t.state
  constructor
  · simp only [solve, Problem.branch_relisted harrange]
  · simp only [solve, hrecorded, Problem.branch_relisted harrange']

/-- With the colours of the edge listed in descending order, the least one is still tried first, and taken back. -/
theorem solve_relisted_edge :
    let p := Network.edge.problem
    let descending : Assignment (Fin 2) Nat → Fin 2 → List Nat := fun a v => (p.domain a v).reverse
    let s : Assignment (Fin 2) Nat := fun _ => none
    let solver : Solver := { order := .natural }
    (∀ a v, (descending a v).Perm (p.domain a v)) ∧ descending s 0 = [1, 0] ∧
      ∃ r run, (solver.solve (p.relisted descending) 3 s).1 = some r ∧ r.solved = true ∧ r.effort = ⟨3, 1, 1⟩ ∧
        (solver.solve (p.relisted descending).recorded 3 ⟨s, []⟩).1 = some run ∧
        run.state.changes = [.assigned 0 0, .cleared 0, .assigned 0 1, .assigned 1 0] := by
  intro p descending s solver
  have hperm : ∀ a v, (descending a v).Perm (p.domain a v) := fun a v => List.reverse_perm _
  have hlisted : descending s 0 = [1, 0] := by decide
  have hrun : (solver.solve p 3 s).1.map (fun r => (r.solved, r.effort)) = some (true, ⟨3, 1, 1⟩) := by cbv
  have hchanges : (solver.solve p.recorded 3 ⟨s, []⟩).1.map (fun run => run.state.changes) =
      some [.assigned 0 0, .cleared 0, .assigned 0 1, .assigned 1 0] := by cbv
  obtain ⟨hplain, hrecorded⟩ := solve_relisted hperm solver 3 s
  rw [← hplain] at hrun
  rw [← hrecorded] at hchanges
  obtain ⟨r, hr, hpair⟩ := Option.map_eq_some_iff.mp hrun
  obtain ⟨run, hrun', hlist⟩ := Option.map_eq_some_iff.mp hchanges
  obtain ⟨hok, heffort⟩ := Prod.mk.inj hpair
  exact ⟨hperm, hlisted, r, run, hr, hok, heffort, hrun', hlist⟩

end Solver

end TreeSearch
