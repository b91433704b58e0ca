import TreeSearch.Proofs.Constraint.Entered
import TreeSearch.Proofs.Constraint.Reuse
import TreeSearch.Proofs.Sudoku.Solution

/-!
# How long a search takes

Where assigning closes variables, a search ends: one level down one variable less is open, and since a failure gives
back the state, this holds of the last value tried as of the first one.

* (size) `Course.nodes_le`: with at most `m` values in a domain, at most `1 + m + ... + m ^ (k - 1)` states are counted
  below a state with `k` open variables.  `Task.limit` says this of both kinds of tasks.
* (levels) `Solver.exists_run_of_closing`: as many levels as there are open variables, and the one of the first state,
  are enough.
* (every run) `Solver.solve_terminates`: on every such problem, and on a board of digits and blanks.
-/

namespace TreeSearch

variable {σ ν α : Type}

/-- How many states may be counted in a task at a state with `k` open variables, if no domain has more than `m`
values. -/
def Task.limit (m k : Nat) : Task ν α → Nat
  | .enter => ∑ i ∈ Finset.range k, m ^ i
  | .values _ xs => xs.length * ∑ i ∈ Finset.range (k - 1), m ^ i

namespace Problem

variable [DecidableEq ν] [LE α] [DecidableLE α] {p : Problem σ ν α} {order : VariableOrder} {task : Task ν α}
  {depth : Nat} {s : σ} {cs : List (Change ν α)} {r : Run σ}

/-- The states counted are no more than those of a tree with as many levels as there are open variables. -/
theorem Course.nodes_le (hp : p.Closing) (h : p.Course order task depth s cs r) (ht : p.Offers order s task) {m : Nat}
    (hm : ∀ t ∈ p.entered s cs, ∀ v ∈ p.openVars t, (p.domain t v).length ≤ m) :
    r.effort.nodes ≤ task.limit m (p.openCount s) := by
  induction h with
  | complete => exact Nat.zero_le _
  | stuck hs hv =>
    rw [hp.complete_of_next hv] at hs
    cases hs
  | @branch depth s v cs r _ hv _ ih =>
    have hmem := VariableOrder.next_mem hv
    obtain ⟨k, hk⟩ := Nat.exists_eq_add_of_le' (openCount_pos_of_mem hmem)
    have hvalues := ih (offers_domain hv) hm
    have hlength := hm s (List.mem_cons_self ..) v hmem
    simp only [Task.limit, hk, List.length_mergeSort, Nat.add_sub_cancel] at hvalues ⊢
    calc (r.after (.node depth)).effort.nodes = r.effort.nodes + 1 := Nat.add_comm _ _
      _ ≤ m * ∑ i ∈ Finset.range k, m ^ i + 1 := Nat.succ_le_succ (hvalues.trans (Nat.mul_le_mul_right _ hlength))
      _ = ∑ i ∈ Finset.range (k + 1), m ^ i := geom_sum_succ.symm
  | exhausted => exact Nat.zero_le _
  | refused _ _ ih => exact (ih ht.tail hm).trans (Nat.mul_le_mul_right _ (Nat.le_succ _))
  | @solved depth s v x xs cs r _ _ _ ih =>
    have hbelow : r.effort.nodes ≤ ∑ i ∈ Finset.range (p.openCount (p.assign s v x)), m ^ i :=
      ih trivial fun t hmem => hm t (List.mem_cons_of_mem _ hmem)
    rw [Nat.eq_sub_of_add_eq (hp.openCount_of_offers ht)] at hbelow
    exact hbelow.trans (Nat.le_mul_of_pos_left _ (Nat.succ_pos _))
  | @failed depth s v x xs cs cs' r rest _ hr hfail _ ih ihrest =>
    rw [hr.clear_of_failed hp.clear_assign hfail ht] at ihrest
    rw [entered, hr.entries_of_failed hp.clear_assign hfail ht, List.forall_mem_cons, List.forall_mem_append] at hm
    obtain ⟨hms, hmbelow, hmrest⟩ := hm
    have hbelow : r.effort.nodes ≤ ∑ i ∈ Finset.range (p.openCount (p.assign s v x)), m ^ i := ih trivial hmbelow
    have hrest : rest.effort.nodes ≤ xs.length * ∑ i ∈ Finset.range (p.openCount s - 1), m ^ i :=
      ihrest ht.tail (List.forall_mem_cons.mpr ⟨hms, hmrest⟩)
    rw [Nat.eq_sub_of_add_eq (hp.openCount_of_offers ht)] at hbelow
    rw [Task.limit, List.length_cons, Nat.succ_mul, Nat.add_comm]
    exact Nat.add_le_add hbelow hrest

end Problem

/-- A search ends alike within any number of levels that is greater than the number of open variables, and within the
bounds on depth and size. -/
theorem Solver.exists_run_of_closing [DecidableEq ν] [LE α] [DecidableLE α] {p : Problem σ ν α} (hp : p.Closing)
    (solver : Solver) (s : σ) :
    ∃ run : Run (Recorded σ ν α),
      (∀ levels > p.openCount s, (solver.solve p levels s).1 = some (run.map Recorded.state) ∧
        (solver.solve p.recorded levels ⟨s, []⟩).1 = some run) ∧
      run.effort.maxDepth ≤ p.openCount s ∧
      ∀ m, (∀ t ∈ p.entered s run.state.changes, ∀ v ∈ p.openVars t, (p.domain t v).length ≤ m) →
        run.effort.nodes ≤ ∑ i ∈ Finset.range (p.openCount s), m ^ i := by
  obtain ⟨r, hbranch⟩ := hp.exists_branch solver.order 0 (Nat.lt_succ_self (p.openCount s))
  have hr : (solver.solve p (p.openCount s + 1) s).1 = some r := by rw [solve, hbranch]
  obtain ⟨run, hrun, rfl, hcourse⟩ := solver.exists_course hr
  have hdepth : max 0 run.effort.maxDepth ≤ 0 + p.openCount s - 1 := hcourse.maxDepth_le hp trivial
  refine ⟨run, fun levels hl => ⟨?_, ?_⟩, by omega, fun m hm => hcourse.nodes_le hp trivial hm⟩
  · rw [solve, Problem.branch_mono hbranch hl]
  · rw [solve, Problem.branch_mono (branch_of_solve hrun) hl]

/-! ### Sudoku -/

namespace Sudoku

private theorem Board.length_candidates_le (b : Board) (i : Cell) : (b.candidates i).length ≤ 9 :=
  List.length_filter_le ..

private theorem Board.length_blanks_le (b : Board) : b.blanks.length ≤ 81 :=
  (List.length_filter_le ..).trans_eq List.length_finRange

/-- Searches put digits into blanks one by one, whatever values are left out. -/
theorem closing_problem (veto : List Nat) : (problem.vetoing veto).Closing :=
  (presents_network.reads clearUndoesAssign_problem).closing.vetoing veto

private theorem openCount_problem (veto : List Nat) (b : Board) :
    (problem.vetoing veto).openCount b = b.blanks.length := by
  have hnodup : b.blanks.Nodup := (List.nodup_finRange 81).filter _
  exact Problem.openCount_of_nodup hnodup

end Sudoku

/-! ### Every run -/

/-- Where assigning closes variables, a search from a state with `k` open variables ends, whatever limit greater than
`k` there is on the levels; the states that count are at depth `k` at most; and if the domains of the states entered
have at most `m` values, there are at most `1 + m + ... + m ^ (k - 1)` of them.  On a board of digits and blanks the
open variables are the blanks, and `m` is nine. -/
theorem Solver.solve_terminates :
    (∀ (σ ν α : Type) [DecidableEq ν] [LE α] [DecidableLE α] (p : Problem σ ν α), p.Closing →
      ∀ (solver : Solver) (s : σ), ∃ r run,
        (∀ levels > p.openCount s, (solver.solve p levels s).1 = some r ∧
          (solver.solve p.recorded levels ⟨s, []⟩).1 = some run) ∧
        run.map Recorded.state = r ∧ r.effort.maxDepth ≤ p.openCount s ∧
        ∀ m, (∀ t ∈ p.entered s run.state.changes, ∀ v ∈ p.openVars t, (p.domain t v).length ≤ m) →
          r.effort.nodes ≤ ∑ i ∈ Finset.range (p.openCount s), m ^ i) ∧
    ∀ b : Sudoku.Board, b.Digits → b.blanks.length ≤ 81 ∧
      ∀ (veto : List Nat) (solver : Solver), ∃ run, (b.solve? veto solver).1 = some run ∧
        (∀ levels > b.blanks.length,
          (solver.solve (Sudoku.problem.vetoing veto) levels b).1 = some (run.map Recorded.state)) ∧
        run.effort.maxDepth ≤ b.blanks.length ∧
        run.effort.nodes ≤ ∑ i ∈ Finset.range b.blanks.length, 9 ^ i := by
  refine ⟨fun σ ν α _ _ _ p hp solver s => ?_, fun b hb => ⟨b.length_blanks_le, fun veto solver => ?_⟩⟩
  · obtain ⟨run, hlevels, hdepth, hnodes⟩ := solver.exists_run_of_closing hp s
    exact ⟨_, run, hlevels, rfl, hdepth, hnodes⟩
  · obtain ⟨run, hlevels, hdepth, hnodes⟩ := solver.exists_run_of_closing (Sudoku.closing_problem veto) b
    have hsolve := (hlevels _ ((Sudoku.problem.vetoing veto).openCount_lt_levels b)).2
    rw [Sudoku.openCount_problem] at hlevels hdepth hnodes
    refine ⟨run, ?_, fun levels hl => (hlevels levels hl).1, hdepth, hnodes 9 fun t _ i _ => t.length_candidates_le i⟩
    rw [Sudoku.Board.solve?_of_digits hb]
    exact hsolve

/-- The triangle is coloured with one, three and nine states at most, and one blank is given up after one state. -/
theorem Solver.solve_terminates_triangle :
    let p := Network.triangle.problem
    let s : Assignment (Fin 3) Nat := fun _ => none
    p.Closing ∧ p.openCount s = 3 ∧
      (∃ r, (({} : Solver).solve p 4 s).1 = some r ∧ r.effort.maxDepth ≤ 3 ∧ r.effort.nodes ≤ 13) ∧
    Sudoku.Board.stuck.Digits ∧ Sudoku.Board.stuck.blanks.length = 1 ∧
      ∃ run, (Sudoku.Board.stuck.solve? [] {}).1 = some run ∧ run.effort.nodes ≤ 1 := by
  intro p s
  have hp : p.Closing := (Network.triangle.reads_problem _).closing
  have hcount : p.openCount s = 3 := by decide
  have hdomain : ∀ t, ∀ v ∈ p.openVars t, (p.domain t v).length ≤ 3 := fun _ _ _ => List.length_filter_le ..
  have hdigits : Sudoku.Board.stuck.Digits := by decide +kernel
  have hblanks : Sudoku.Board.stuck.blanks.length = 1 := by decide +kernel
  obtain ⟨r, run, hlevels, -, hdepth, hnodes⟩ := solve_terminates.1 _ _ _ p hp {} s
  obtain ⟨-, hboard⟩ := solve_terminates.2 _ hdigits
  obtain ⟨run', hrun', -, -, hnodes'⟩ := hboard [] {}
  have hsize := hnodes 3 fun t _ => hdomain t
  rw [hcount] at hdepth hsize
  rw [hblanks] at hnodes'
  have hr := (hlevels 4 (by rw [hcount]; decide)).1
  exact ⟨hp, hcount, ⟨r, hr, hdepth, hsize⟩, hdigits, hblanks, run', hrun', hnodes'⟩

end TreeSearch
