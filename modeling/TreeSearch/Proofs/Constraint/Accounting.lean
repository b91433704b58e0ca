import TreeSearch.Proofs.Constraint.Closing

/-!
# What the counters of a run say

The counters of a run are told by the changes that it makes, and, where assigning closes variables, by the number of
variables that were open at first.

* `assignments`, `clearings`: how many changes of either kind there are.
* `Task.counted`: what has been counted when a task comes up.  With it the accounts of both kinds of tasks are the same.
* (any problem) `Course.nodes_add_solved`, `Course.backtracks_eq`, `Course.clearings_of_failed`: a state is entered at
  first and after each assignment, and a complete one does not count; every clearing is a backtrack, and a failure
  clears whatever it has assigned.
* (closing problems) `Course.assignments_add_openCount`: what is assigned and not cleared is closed in the end.
* (depth) `Course.maxDepth_le`, `Course.maxDepth_of_solved`: each level has one open variable less than the one above
  it, and a run that succeeds goes down to the last level that has one.
* (every run) `Solver.solve_accounts`.
-/

namespace TreeSearch

variable {σ ν α : Type}

/-! ### Changes counted -/

section

/-- Whether a change assigns a variable. -/
def Change.assigns : Change ν α → Bool
  | .assigned _ _ => true
  | .cleared _ => false

/-- How many of the changes assign a variable. -/
def assignments (cs : List (Change ν α)) : Nat := cs.countP fun c => c.assigns

/-- How many of the changes clear a variable. -/
def clearings (cs : List (Change ν α)) : Nat := cs.countP fun c => !c.assigns

variable (v : ν) (x : α) (cs cs' : List (Change ν α))

@[simp] theorem assignments_assigned : assignments (.assigned v x :: cs) = assignments cs + 1 :=
  List.countP_cons_of_pos rfl

@[simp] theorem assignments_cleared : assignments (.cleared v :: cs) = assignments cs :=
  List.countP_cons_of_neg Bool.false_ne_true

@[simp] theorem assignments_append : assignments (cs ++ cs') = assignments cs + assignments cs' := List.countP_append

@[simp] theorem clearings_assigned : clearings (.assigned v x :: cs) = clearings cs :=
  List.countP_cons_of_neg Bool.false_ne_true

@[simp] theorem clearings_cleared : clearings (.cleared v :: cs) = clearings cs + 1 := List.countP_cons_of_pos rfl

@[simp] theorem clearings_append : clearings (cs ++ cs') = clearings cs + clearings cs' := List.countP_append

end

/-! ### Effort counted -/

namespace Effort

@[simp] theorem nodes_node (depth : Nat) : (node depth).nodes = 1 := rfl
@[simp] theorem backtracks_node (depth : Nat) : (node depth).backtracks = 0 := rfl
@[simp] theorem maxDepth_node (depth : Nat) : (node depth).maxDepth = depth := rfl
@[simp] theorem nodes_backtrack : backtrack.nodes = 0 := rfl
@[simp] theorem backtracks_backtrack : backtrack.backtracks = 1 := rfl
@[simp] theorem maxDepth_backtrack : backtrack.maxDepth = 0 := rfl

end Effort

/-- What has been counted when a task comes up at a depth: the state counts before its values are tried. -/
def Task.counted (depth : Nat) : Task ν α → Effort
  | .enter => 0
  | .values _ _ => .node depth

namespace Problem

variable [LE α] [DecidableLE α] {p : Problem σ ν α} {order : VariableOrder} {task : Task ν α} {depth : Nat} {s : σ}
  {cs : List (Change ν α)} {r : Run σ}

/-! ### Any problem -/

/-- A state is entered at first and after each assignment, and all of them count but a complete one. -/
theorem Course.nodes_add_solved (h : p.Course order task depth s cs r) :
    (task.counted depth + r.effort).nodes + r.solved.toNat = assignments cs + 1 := by
  induction h with
  | complete => rfl
  | stuck => rfl
  | branch _ _ _ ih => simpa [Task.counted] using ih
  | exhausted => rfl
  | refused _ _ ih => exact ih
  | solved _ _ _ ih =>
    simp only [Task.counted, Effort.add_nodes, Effort.zero_nodes, Effort.nodes_node, assignments_assigned] at ih ⊢
    omega
  | failed _ _ hfail _ ih ihrest =>
    simp only [Task.counted, Effort.add_nodes, Effort.zero_nodes, Effort.nodes_node, hfail, Bool.toNat_false,
      Run.effort_after, Effort.nodes_backtrack, Run.solved_after, List.cons_append, assignments_assigned,
      assignments_append, assignments_cleared] at ih ihrest ⊢
    omega

/-- Every clearing is a backtrack, and there are no others. -/
theorem Course.backtracks_eq (h : p.Course order task depth s cs r) : r.effort.backtracks = clearings cs := by
  induction h with
  | complete => rfl
  | stuck => rfl
  | branch _ _ _ ih => simpa using ih
  | exhausted => rfl
  | refused _ _ ih => exact ih
  | solved _ _ _ ih => simpa using ih
  | failed _ _ _ _ ih ihrest =>
    simp only [Run.effort_after, Effort.add_backtracks, Effort.backtracks_backtrack, ih, ihrest, List.cons_append,
      clearings_assigned, clearings_append, clearings_cleared]
    omega

/-- A failure clears as often as it assigns. -/
theorem Course.clearings_of_failed (h : p.Course order task depth s cs r) (hr : r.solved = false) :
    clearings cs = assignments cs := by
  induction h with
  | complete => cases hr
  | stuck => rfl
  | branch _ _ _ ih => exact ih hr
  | exhausted => rfl
  | refused _ _ ih => exact ih hr
  | solved _ _ hok => rw [hok] at hr; cases hr
  | failed _ _ hfail _ ih ihrest =>
    simp only [List.cons_append, clearings_assigned, clearings_append, clearings_cleared, assignments_assigned,
      assignments_append, assignments_cleared, ih hfail, ihrest hr]
    omega

/-- A search does not fail in a complete state. -/
private theorem Course.not_complete_of_failed (h : p.Course order .enter depth s cs r) (hr : r.solved = false) :
    p.complete s = false := by
  cases h with
  | complete => cases hr
  | stuck hs _ => exact hs
  | branch hs _ _ => exact hs

/-! ### Problems that close what they assign -/

variable [DecidableEq ν]

/-- Each assignment closes a variable, and each clearing opens one again. -/
theorem Course.assignments_add_openCount (hp : p.Closing) (h : p.Course order task depth s cs r)
    (ht : p.Offers order s task) : assignments cs + p.openCount r.state = clearings cs + p.openCount s := by
  induction h with
  | complete => rfl
  | stuck => rfl
  | branch _ hv _ ih => exact ih (offers_domain hv)
  | exhausted => rfl
  | refused _ _ ih => exact ih ht.tail
  | solved _ _ _ ih =>
    have hclosed := hp.openCount_of_offers ht
    have hbelow := ih trivial
    rw [assignments_assigned, clearings_assigned]
    omega
  | failed _ hr hfail _ ih ihrest =>
    have hbalance := hr.clearings_of_failed hfail
    rw [hr.clear_of_failed hp.clear_assign hfail ht] at ihrest
    have hrest := ihrest ht.tail
    simp only [List.cons_append, clearings_assigned, clearings_append, clearings_cleared, assignments_assigned,
      assignments_append, assignments_cleared, Run.state_after]
    omega

/-- Every state that counts has an open variable, and at each level there is one less than at the level above. -/
theorem Course.maxDepth_le (hp : p.Closing) (h : p.Course order task depth s cs r) (ht : p.Offers order s task) :
    (task.counted depth + r.effort).maxDepth ≤ depth + p.openCount s - 1 := by
  induction h with
  | complete => exact Nat.zero_le _
  | stuck hs hv =>
    rw [hp.complete_of_next hv] at hs
    cases hs
  | branch _ hv _ ih => simpa [Task.counted] using ih (offers_domain hv)
  | exhausted =>
    have hpos := openCount_pos_of_mem (VariableOrder.next_mem ht.1)
    simp only [Task.counted, Effort.add_maxDepth, Effort.maxDepth_node, Effort.zero_maxDepth]
    omega
  | refused _ _ ih => exact ih ht.tail
  | solved _ _ _ ih =>
    have hclosed := hp.openCount_of_offers ht
    have hbelow := ih trivial
    simp only [Task.counted, Effort.add_maxDepth, Effort.maxDepth_node, Effort.zero_maxDepth] at hbelow ⊢
    omega
  | failed _ hr hfail _ ih ihrest =>
    have hclosed := hp.openCount_of_offers ht
    have hbelow := ih trivial
    rw [hr.clear_of_failed hp.clear_assign hfail ht] at ihrest
    have hrest := ihrest ht.tail
    simp only [Task.counted, Effort.add_maxDepth, Effort.maxDepth_node, Effort.zero_maxDepth, Run.effort_after,
      Effort.maxDepth_backtrack] at hbelow hrest ⊢
    omega

/-- A run that succeeds goes down to the last level that has an open variable. -/
theorem Course.maxDepth_of_solved (hp : p.Closing) (h : p.Course order task depth s cs r) (ht : p.Offers order s task)
    (hr : r.solved = true) (hs : 0 < p.openCount s) :
    (task.counted depth + r.effort).maxDepth = depth + p.openCount s - 1 := by
  induction h with
  | complete hcomplete =>
    rw [hp.openCount_eq_zero_iff.mpr hcomplete] at hs
    cases hs
  | stuck => cases hr
  | branch _ hv _ ih => simpa [Task.counted] using ih (offers_domain hv) hr hs
  | exhausted => cases hr
  | refused _ _ ih => exact ih ht.tail hr hs
  | solved _ hbelow _ ih =>
    have hclosed := hp.openCount_of_offers ht
    have hle := hbelow.maxDepth_le hp trivial
    have heq := ih trivial hr
    simp only [Task.counted, Effort.add_maxDepth, Effort.maxDepth_node, Effort.zero_maxDepth] at hle heq ⊢
    omega
  | failed _ hbelow hfail _ ih ihrest =>
    have hclosed := hp.openCount_of_offers ht
    have hle := hbelow.maxDepth_le hp trivial
    rw [hbelow.clear_of_failed hp.clear_assign hfail ht] at ihrest
    have heq := ihrest ht.tail hr hs
    simp only [Task.counted, Effort.add_maxDepth, Effort.maxDepth_node, Effort.zero_maxDepth, Run.effort_after,
      Effort.maxDepth_backtrack] at hle heq ⊢
    omega

end Problem

namespace Solver

variable [LE α] [DecidableLE α] {p : Problem σ ν α} {solver solver' : Solver} {levels : Nat} {s : σ} {r : Run σ}

private theorem effort_of_solve (h : solver.solve p levels s = (some r, solver')) : solver'.effort = r.effort := by
  have hbranch : p.branch solver.order levels 0 s = some r := branch_of_solve (by rw [h])
  rw [solve, hbranch] at h
  rw [← (Prod.mk.inj h).2]

/-- The counters of a run.  Every clearing is a backtrack.  A success counts a state for each assignment; a failure
counts one more, and has cleared as often as it has assigned.  Where assigning closes variables, a success counts a
state for each backtrack and for each variable that was open, and goes down to the last of as many levels; a failure
counts one state more than backtracks, and does not go further down. -/
theorem solve_accounts [DecidableEq ν] (h : solver.solve p levels s = (some r, solver')) :
    let effort := solver'.effort
    (∃ run, (solver.solve p.recorded levels ⟨s, []⟩).1 = some run ∧ run.map Recorded.state = r ∧
      effort.backtracks = clearings run.state.changes ∧
      (r.solved = true → effort.nodes = assignments run.state.changes) ∧
      (r.solved = false → effort.nodes = assignments run.state.changes + 1 ∧
        clearings run.state.changes = assignments run.state.changes)) ∧
    (p.Closing →
      (r.solved = true → effort.nodes = effort.backtracks + p.openCount s ∧ effort.maxDepth = p.openCount s - 1) ∧
      (r.solved = false → effort.nodes = effort.backtracks + 1 ∧ effort.maxDepth < p.openCount s)) := by
  intro effort
  have heffort : effort = r.effort := effort_of_solve h
  have hsome : (solver.solve p levels s).1 = some r := by rw [h]
  obtain ⟨run, hrun, hmap, hcourse⟩ := solver.exists_course hsome
  have hback : r.effort.backtracks = clearings run.state.changes := hcourse.backtracks_eq
  have hnodes : 0 + r.effort.nodes + r.solved.toNat = assignments run.state.changes + 1 := hcourse.nodes_add_solved
  have hsuccess : r.solved = true → r.effort.nodes = assignments run.state.changes := by
    intro hok
    rw [hok, Bool.toNat_true] at hnodes
    omega
  have hfailure : r.solved = false → r.effort.nodes = assignments run.state.changes + 1 := by
    intro hfail
    rw [hfail, Bool.toNat_false] at hnodes
    omega
  rw [heffort]
  refine ⟨⟨run, hrun, hmap, hback, hsuccess, fun hfail => ⟨hfailure hfail, hcourse.clearings_of_failed hfail⟩⟩,
    fun hp => ⟨fun hok => ?_, fun hfail => ?_⟩⟩
  · have hopen := hcourse.assignments_add_openCount hp trivial
    rw [hp.openCount_eq_zero_iff.mpr (hcourse.complete_of_solved hok), ← hsuccess hok, ← hback] at hopen
    have hle : max 0 r.effort.maxDepth ≤ 0 + p.openCount s - 1 := hcourse.maxDepth_le hp trivial
    have heq : 0 < p.openCount s → max 0 r.effort.maxDepth = 0 + p.openCount s - 1 :=
      hcourse.maxDepth_of_solved hp trivial hok
    omega
  · have hpos : p.openCount s ≠ 0 := by
      rw [Ne, hp.openCount_eq_zero_iff, hcourse.not_complete_of_failed hfail]
      decide
    have hle : max 0 r.effort.maxDepth ≤ 0 + p.openCount s - 1 := hcourse.maxDepth_le hp trivial
    have hbalance := hcourse.clearings_of_failed hfail
    rw [hfailure hfail, hback]
    omega

/-- The edge is coloured with one backtrack and two variables open, and not coloured without the colour zero. -/
theorem solve_accounts_edge :
    let p := Network.edge.problem
    let q := p.vetoing [0]
    let s : Assignment (Fin 2) Nat := fun _ => none
    let solver : Solver := { order := .natural }
    p.Closing ∧ q.Closing ∧ p.openCount s = 2 ∧ q.openCount s = 2 ∧
      (∃ r solver' run, solver.solve p 3 s = (some r, solver') ∧ r.solved = true ∧
        (solver.solve p.recorded 3 ⟨s, []⟩).1 = some run ∧ solver'.effort.backtracks = clearings run.state.changes ∧
        solver'.effort.nodes = assignments run.state.changes ∧
        solver'.effort.nodes = solver'.effort.backtracks + 2 ∧ solver'.effort.maxDepth = 1) ∧
      ∃ r solver' run, solver.solve q 3 s = (some r, solver') ∧ r.solved = false ∧
        (solver.solve q.recorded 3 ⟨s, []⟩).1 = some run ∧
        solver'.effort.nodes = assignments run.state.changes + 1 ∧
        clearings run.state.changes = assignments run.state.changes ∧
        solver'.effort.nodes = solver'.effort.backtracks + 1 ∧ solver'.effort.maxDepth < 2 := by
  intro p q s solver
  have hp : p.Closing := (Network.edge.reads_problem _).closing
  have hq : q.Closing := hp.vetoing [0]
  have hcount : p.openCount s = 2 := by decide
  have hcount' : q.openCount s = 2 := hcount
  have hsolved : (solver.solve p 3 s).1.map Run.solved = some true := by cbv
  have hfailed : (solver.solve q 3 s).1.map Run.solved = some false := by cbv
  obtain ⟨r, hr, hok⟩ := Option.map_eq_some_iff.mp hsolved
  obtain ⟨r', hr', hfail⟩ := Option.map_eq_some_iff.mp hfailed
  have hrun : solver.solve p 3 s = (some r, (solver.solve p 3 s).2) := Prod.ext hr rfl
  have hrun' : solver.solve q 3 s = (some r', (solver.solve q 3 s).2) := Prod.ext hr' rfl
  obtain ⟨⟨run, hrec, -, hback, hnodes, -⟩, hclosing⟩ := solve_accounts hrun
  obtain ⟨⟨run', hrec', -, -, -, hnodes'⟩, hclosing'⟩ := solve_accounts hrun'
  obtain ⟨htotal, hdepth⟩ := (hclosing hp).1 hok
  obtain ⟨htotal', hdepth'⟩ := (hclosing' hq).2 hfail
  rw [hcount] at htotal hdepth
  rw [hcount'] at hdepth'
  obtain ⟨hone, hbalance⟩ := hnodes' hfail
  exact ⟨hp, hq, hcount, hcount', ⟨r, _, run, hrun, hok, hrec, hback, hnodes hok, htotal, hdepth⟩, r', _, run', hrun',
    hfail, hrec', hone, hbalance, htotal', hdepth'⟩

end Solver

end TreeSearch
