import TreeSearch.Proofs.Constraint.Discipline

/-!
# Solvers used again

A solver keeps the effort of its last run and nothing else, so what it has solved before does not show.

* `Solver.Used order`: the solvers of an order, after any number of runs on any problems.
* (levels) `Problem.branch_mono`: a run that ends within some levels ends alike within more.
* (complete states) `Problem.branch_of_complete`: a search of a complete state ends at once.
* (once more) `Solver.solve_again`: a run shows nothing of earlier ones; a second run on the state that it left ends
  with the same verdict in the same state.  After a success it does nothing, and after a failure it repeats the effort.
-/

namespace TreeSearch

variable {σ ν α : Type}

namespace Problem

variable {p : Problem σ ν α} {order : VariableOrder}

/-! ### Limits -/

private theorem tryValues_mono {v : ν} {descend descend' : σ → Option (Run σ)}
    (hdescend : ∀ s r, descend s = some r → descend' s = some r) {xs : List α} {s : σ} {r : Run σ}
    (h : p.tryValues v descend xs s = some r) : p.tryValues v descend' xs s = some r := by
  induction xs generalizing s r with
  | nil => exact h
  | cons x xs ih =>
    rw [tryValues] at h ⊢
    split at h
    · rename_i hx
      rw [if_pos hx]
      obtain ⟨r₁, hr₁, h⟩ := Option.bind_eq_some_iff.mp h
      refine Option.bind_eq_some_iff.mpr ⟨r₁, hdescend _ _ hr₁, ?_⟩
      split at h
      · rename_i hok
        rw [if_pos hok, h]
      · rename_i hfail
        rw [if_neg hfail]
        obtain ⟨rest, hrest, h⟩ := Option.bind_eq_some_iff.mp h
        exact Option.bind_eq_some_iff.mpr ⟨rest, ih hrest, h⟩
    · rename_i hx
      rw [if_neg hx]
      exact ih h

variable [LE α] [DecidableLE α]

/-- A run that ends within some levels ends alike within more. -/
theorem branch_mono {levels levels' depth : Nat} {s : σ} {r : Run σ} (h : p.branch order levels depth s = some r)
    (hl : levels ≤ levels') : p.branch order levels' depth s = some r := by
  induction levels generalizing levels' depth s r with
  | zero => cases h
  | succ levels ih =>
    obtain ⟨levels', rfl⟩ := Nat.exists_eq_add_of_le' (Nat.le_trans (Nat.succ_pos levels) hl)
    rw [branch] at h ⊢
    split at h
    · rename_i hs
      rw [if_pos hs, h]
    · rename_i hs
      rw [if_neg hs]
      split at h
      · exact h
      · obtain ⟨r₁, hr₁, h⟩ := Option.bind_eq_some_iff.mp h
        refine Option.bind_eq_some_iff.mpr ⟨r₁, tryValues_mono ?_ hr₁, h⟩
        intro t r' hr'
        exact ih hr' (Nat.le_of_succ_le_succ hl)

theorem branch_of_complete {s : σ} (hs : p.complete s = true) (levels depth : Nat) :
    p.branch order (levels + 1) depth s = some ⟨true, s, 0⟩ := by
  rw [branch, if_pos hs]

end Problem

namespace Solver

/-! ### Solvers with a past -/

/-- The solvers of an order, after any number of runs on any problems. -/
inductive Used (order : VariableOrder) : Solver → Prop
  | fresh : Used order { order }
  | solve {σ ν α : Type} [LE α] [DecidableLE α] {solver : Solver} (h : Used order solver) (p : Problem σ ν α)
      (levels : Nat) (s : σ) : Used order (solver.solve p levels s).2

variable [LE α] [DecidableLE α] {p : Problem σ ν α} {order : VariableOrder} {solver : Solver} {levels : Nat} {s : σ}
  {r : Run σ}

/-- A run keeps the order. -/
private theorem order_solve (solver : Solver) (p : Problem σ ν α) (levels : Nat) (s : σ) :
    (solver.solve p levels s).2.order = solver.order := by
  unfold solve
  split <;> rfl

private theorem Used.order_eq (h : solver.Used order) : solver.order = order := by
  induction h with
  | fresh => rfl
  | solve _ p levels s ih => rw [order_solve, ih]

/-- A solver that has been used runs as a new one does. -/
private theorem Used.solve_of_branch (h : solver.Used order) (hr : p.branch order levels 0 s = some r) :
    solver.solve p levels s = (some r, { order, effort := r.effort }) := by
  obtain rfl := h.order_eq
  rw [Solver.solve, hr]

end Solver

/-- The run `again`, made and recorded on the state that the run `r` left, tells nothing new. -/
structure Run.Repeats (r : Run σ) (again : Run (Recorded σ ν α)) : Prop where
  solved_eq : again.solved = r.solved
  state_eq : again.state.state = r.state
  changes_of_solved : r.solved = true → again.state.changes = []
  effort_of_solved : r.solved = true → again.effort = 0
  effort_of_failed : r.solved = false → again.effort = r.effort

namespace Solver

variable [LE α] [DecidableLE α] {p : Problem σ ν α} {order : VariableOrder} {solver : Solver} {levels : Nat} {s : σ}
  {r : Run σ}

/-- The second run, of any problem on which clearing undoes assigning. -/
private theorem exists_repeats (hp : p.ClearUndoesAssign) (hr : p.branch order levels 0 s = some r) {levels' : Nat}
    (hl : levels ≤ levels') :
    ∃ again : Run (Recorded σ ν α), p.recorded.branch order levels' 0 ⟨r.state, []⟩ = some again ∧ r.Repeats again := by
  have hrun : (Solver.solve { order } p levels s).1 = some r := by rw [Used.fresh.solve_of_branch hr]
  obtain ⟨run, -, -, hcourse⟩ := exists_course hrun
  cases hok : r.solved with
  | true =>
    obtain ⟨l, rfl⟩ : ∃ l, levels' = l + 1 := by
      cases levels with
      | zero => cases hr
      | succ levels => exact Nat.exists_eq_add_of_le' (Nat.le_trans (Nat.succ_pos levels) hl)
    have hcomplete : p.recorded.complete ⟨r.state, []⟩ = true := hcourse.complete_of_solved hok
    refine ⟨⟨true, ⟨r.state, []⟩, 0⟩, Problem.branch_of_complete hcomplete l 0, ?_⟩
    exact ⟨hok.symm, rfl, fun _ => rfl, fun _ => rfl, fun h => by rw [hok] at h; cases h⟩
  | false =>
    -- the state is the first one again, so the first run is made once more
    have hstate : r.state = s := hcourse.state_of_failed hp trivial hok
    have hmore := Problem.branch_mono hr hl
    rw [show s = (⟨s, []⟩ : Recorded σ ν α).state from rfl, p.branch_recorded] at hmore
    obtain ⟨again, hagain, rfl⟩ := Option.map_eq_some_iff.mp hmore
    rw [hstate]
    refine ⟨again, hagain, rfl, rfl, ?_, ?_, fun _ => rfl⟩
    all_goals
      intro h
      rw [hok] at h
      cases h

/-- Whatever a solver has been used for, a run is that of a new solver.  A second run on the state that it left ends
with the same verdict in the same state; after a success it makes no change and counts nothing, and after a failure it
counts the same. -/
theorem solve_again (hp : p.ClearUndoesAssign) (hu : solver.Used order) (h : (solver.solve p levels s).1 = some r) :
    solver.solve p levels s = (some r, { order, effort := r.effort }) ∧
    Solver.solve { order } p levels s = (some r, { order, effort := r.effort }) ∧
    ∀ levels' ≥ levels, ∃ again : Run (Recorded σ ν α),
      (solver.solve p levels s).2.solve p levels' r.state =
        (some (again.map Recorded.state), { order, effort := again.effort }) ∧
      ((solver.solve p levels s).2.solve p.recorded levels' ⟨r.state, []⟩).1 = some again ∧ r.Repeats again := by
  have hr : p.branch order levels 0 s = some r := by
    rw [← hu.order_eq]
    exact branch_of_solve h
  refine ⟨hu.solve_of_branch hr, Used.fresh.solve_of_branch hr, ?_⟩
  intro levels' hl
  obtain ⟨again, hagain, hrepeats⟩ := exists_repeats hp hr hl
  have hstate : p.branch order levels' 0 r.state = some (again.map Recorded.state) := by
    rw [show r.state = (⟨r.state, []⟩ : Recorded σ ν α).state from rfl, p.branch_recorded, hagain]
    rfl
  have hu' := hu.solve p levels s
  exact ⟨again, hu'.solve_of_branch hstate, by rw [hu'.solve_of_branch hagain], hrepeats⟩

/-- A solver that has failed on the edge without the colour zero solves the edge with all colours, and fails again
without the colour zero; each run is then repeated. -/
theorem solve_again_edge :
    let p := Network.edge.problem
    let q := p.vetoing [0]
    let s : Assignment (Fin 2) Nat := fun _ => none
    let solver : Solver := (Solver.solve { order := .natural } q 3 s).2
    p.ClearUndoesAssign ∧ q.ClearUndoesAssign ∧ solver.Used .natural ∧
      (∃ r again, (solver.solve p 3 s).1 = some r ∧ r.solved = true ∧
        ((solver.solve p 3 s).2.solve p.recorded 3 ⟨r.state, []⟩).1 = some again ∧ r.Repeats again) ∧
      ∃ r again, (solver.solve q 3 s).1 = some r ∧ r.solved = false ∧ r.effort = ⟨2, 1, 1⟩ ∧
        ((solver.solve q 3 s).2.solve q.recorded 3 ⟨r.state, []⟩).1 = some again ∧ r.Repeats again := by
  intro p q s solver
  have hp : p.ClearUndoesAssign := Network.clearUndoesAssign_problem _
  have hq : q.ClearUndoesAssign := hp
  have hu : solver.Used .natural := Used.fresh.solve q 3 s
  have hsolved : (p.branch .natural 3 0 s).map Run.solved = some true := by cbv
  have hfailed : (q.branch .natural 3 0 s).map (fun r => (r.solved, r.effort)) = some (false, ⟨2, 1, 1⟩) := by cbv
  obtain ⟨r, hbranch, hok⟩ := Option.map_eq_some_iff.mp hsolved
  obtain ⟨r', hbranch', hpair⟩ := Option.map_eq_some_iff.mp hfailed
  obtain ⟨hfail, heffort⟩ := Prod.mk.inj hpair
  have hr : (solver.solve p 3 s).1 = some r := by rw [hu.solve_of_branch hbranch]
  have hr' : (solver.solve q 3 s).1 = some r' := by rw [hu.solve_of_branch hbranch']
  obtain ⟨-, -, hagain⟩ := solve_again hp hu hr
  obtain ⟨-, -, hagain'⟩ := solve_again hq hu hr'
  obtain ⟨again, -, hrun, hrepeats⟩ := hagain 3 (Nat.le_refl 3)
  obtain ⟨again', -, hrun', hrepeats'⟩ := hagain' 3 (Nat.le_refl 3)
  exact ⟨hp, hq, hu, ⟨r, again, hr, hok, hrun, hrepeats⟩, r', again', hr', hfail, heffort, hrun', hrepeats'⟩

end Solver

end TreeSearch
