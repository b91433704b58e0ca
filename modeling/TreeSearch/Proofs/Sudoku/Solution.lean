import TreeSearch.Proofs.Constraint.Discipline
import TreeSearch.Proofs.Constraint.Least
import TreeSearch.Proofs.Sudoku.Filling

/-!
# Solving sudoku

* (plain search) `Board.solve?_of_digits`: on a board of digits and blanks a search is never without an answer, so it
  is the search of the sudoku problem; `Board.solve?_map_state`: what it ends with does not depend on the record.
* (fillings) `Board.solve?_iff_exists_fills`: it succeeds iff the blanks can be filled, and leaves a filling then.
* (failure) `Solver.solve_failed_restores`: a failed search leaves the board as it was; this holds of every problem
  in which clearing undoes assigning.
* (first filling) `Solver.solve_natural_precedes`: in the natural order it is the first of all fillings that is left, as
  on every network.
-/

namespace TreeSearch

namespace Sudoku

/-- Searches put digits into cells and erase them. -/
private theorem keeps_digits (veto : List Nat) : (problem.vetoing veto).recorded.Keeps fun t => t.state.Digits where
  assign _ i x hx _ ht := by
    have hx' : x ∈ Board.candidates _ i := hx
    exact ht.put i (Board.mem_candidates.mp hx').1.2
  clear i _ ht := ht.erase i

namespace Board

private theorem Digits.unreadable_eq_false {b : Board} (h : b.Digits) (order : VariableOrder) :
    unreadable order b = false := by
  simp only [unreadable, Bool.not_eq_false', List.all_eq_true]
  exact fun i _ => h.readable i

/-- On a board of digits and blanks a search is the search of the sudoku problem. -/
theorem solve?_of_digits {b : Board} (hb : b.Digits) (veto : List Nat) (solver : Solver) :
    b.solve? veto solver = solver.solve (problem.vetoing veto).recorded (problem.levels b) ⟨b, []⟩ := by
  have hbranch := (keeps_digits veto).branch_stoppingWhen (fun _ ht => ht.unreadable_eq_false solver.order)
    solver.order (problem.levels b) 0 (s := ⟨b, []⟩) hb
  have hstopping : ((problem.stoppingWhen (unreadable solver.order)).vetoing veto).recorded =
      (problem.vetoing veto).recorded.stoppingWhen fun t => unreadable solver.order t.state := rfl
  simp only [solve?, Solver.solve, hstopping, hbranch]
  cases hrun : (problem.vetoing veto).recorded.branch solver.order (problem.levels b) 0 ⟨b, []⟩ with
  | none => rfl
  | some run =>
    obtain ⟨cs, hcourse, -⟩ := Problem.course_of_branch hrun
    have hfull : (run.solved && !run.state.state.isFull) = false := by
      cases hsolved : run.solved with
      | false => rfl
      | true =>
        have hc : run.state.state.isFull = true := hcourse.complete_of_solved hsolved
        rw [hc]
        rfl
    simp only [hfull]
    rfl

/-- With no value left out, the run on a board of digits and blanks is that of the sudoku problem, with a record. -/
theorem solve?_map_state {b : Board} (hb : b.Digits) (solver : Solver) :
    (b.solve? [] solver).1.map (Run.map Recorded.state) = problem.branch solver.order (problem.levels b) 0 b := by
  have hveto : problem.vetoing [] = problem := rfl
  have hrecorded := problem.branch_recorded solver.order (problem.levels b) 0 ⟨b, []⟩
  rw [solve?_of_digits hb, hveto, Solver.solve, hrecorded]
  cases problem.recorded.branch solver.order (problem.levels b) 0 ⟨b, []⟩ with
  | none => rfl
  | some run => rfl

/-- Every board read from a text holds digits and blanks.  On such a board a search ends; it succeeds iff the blanks
can be filled, and leaves a filling then, which is solved iff no two givens contradict each other. -/
theorem solve?_iff_exists_fills :
    (∀ text b, ofText text = .ok b → b.Digits) ∧
    ∀ b : Board, b.Digits → ∀ solver : Solver, ∃ run, (b.solve? [] solver).1 = some run ∧
      (run.solved = true ↔ ∃ f, b.Fills f) ∧
      (run.solved = true → b.Fills run.state.state ∧ (run.state.state.isSolved = true ↔ b.Consistent)) := by
  refine ⟨fun _ _ => digits_ofText, fun b hb solver => ?_⟩
  obtain ⟨r, hr, hsettles⟩ := presents_network.branch_settles checks_network solver.order 0
    (Nat.lt_succ_self (problem.openVars b).length)
  obtain ⟨run, hrun, rfl⟩ := Option.map_eq_some_iff.mp ((solve?_map_state hb solver).trans hr)
  have hfills : run.solved = true → b.Fills run.state.state := fun h => fills_iff.mp (hsettles.fills h)
  refine ⟨run, hrun, ⟨fun h => ⟨_, hfills h⟩, ?_⟩, fun h => ⟨hfills h, (hfills h).isSolved_iff hb⟩⟩
  rintro ⟨f, hf⟩
  cases hsolved : run.solved with
  | true => rfl
  | false => exact absurd (fills_iff.mpr hf) (hsettles.refutes hsolved f.value trivial)

/-- Ones everywhere but in the first cell. -/
def ones : Board := ⟨Vector.ofFn fun i => if i = 0 then 0 else 1⟩

/-- The blank among contradictory givens is filled all the same, and the board is not solved then. -/
theorem solve?_iff_exists_fills_ones :
    ofText (String.ofList ('.' :: List.replicate 80 '1')) = .ok ones ∧ ones.Digits ∧
      ∃ run, (ones.solve? [] {}).1 = some run ∧ run.solved = true ∧ ones.Fills run.state.state ∧
        run.state.state.isSolved = false := by
  have hread : ofText (String.ofList ('.' :: List.replicate 80 '1')) = .ok ones := by cbv
  have hdigits : ones.Digits := solve?_iff_exists_fills.1 _ _ hread
  have hfill : ones.Fills (ones.put 0 2) := ⟨by decide +kernel, by decide +kernel, by decide +kernel⟩
  obtain ⟨run, hrun, hiff, hsolved⟩ := solve?_iff_exists_fills.2 ones hdigits {}
  have hok := hiff.mpr ⟨_, hfill⟩
  obtain ⟨hfills, hconsistent⟩ := hsolved hok
  refine ⟨hread, hdigits, run, hrun, hok, hfills, ?_⟩
  rw [← Bool.not_eq_true, hconsistent]
  intro h
  exact h 1 2 (by decide) (by decide) (by decide)

end Board

end Sudoku

/-- Where clearing undoes assigning, a failed search leaves the state as it was.  It does in sudoku, so a failed search
leaves a board of digits and blanks as it was, whatever values are left out. -/
theorem Solver.solve_failed_restores :
    (∀ (σ ν α : Type) [LE α] [DecidableLE α] (p : Problem σ ν α), p.ClearUndoesAssign →
      ∀ (solver : Solver) (levels : Nat) (s : σ) (r : Run σ),
        (solver.solve p levels s).1 = some r → r.solved = false → r.state = s) ∧
    Sudoku.problem.ClearUndoesAssign ∧
    ∀ b : Sudoku.Board, b.Digits → ∀ (veto : List Nat) (solver : Solver) (run : Run _),
      (b.solve? veto solver).1 = some run → run.solved = false → run.state.state = b := by
  refine ⟨fun σ ν α _ _ p hp solver levels s r h hr => ?_, Sudoku.clearUndoesAssign_problem,
    fun b hb veto solver run h hrun => ?_⟩
  · obtain ⟨run, -, -, hcourse⟩ := solver.exists_course h
    exact hcourse.state_of_failed hp trivial hr
  · rw [Sudoku.Board.solve?_of_digits hb] at h
    obtain ⟨cs, hcourse, -⟩ := Problem.course_of_branch (branch_of_solve h)
    have hundo : (Sudoku.problem.vetoing veto).ClearUndoesAssign := Sudoku.clearUndoesAssign_problem
    exact hcourse.state_of_failed hundo trivial hrun

/-- The first cell is blank, and each digit is in a cell that it sees. -/
def Sudoku.Board.stuck : Board := ⟨Vector.ofFn fun i => if i ≤ 9 then i else 1⟩

/-- A failure after some colours were tried, and one without a candidate. -/
theorem Solver.solve_failed_restores_stuck :
    let p := Network.triangle.problem.vetoing [2]
    let s : Assignment (Fin 3) Nat := fun _ => none
    p.ClearUndoesAssign ∧ (∃ r, (({} : Solver).solve p 4 s).1 = some r ∧ r.solved = false ∧ r.effort.backtracks = 4 ∧
      r.state = s) ∧
    Sudoku.Board.stuck.Digits ∧ ∃ run, (Sudoku.Board.stuck.solve? [] {}).1 = some run ∧ run.solved = false ∧
      run.state.state = Sudoku.Board.stuck := by
  intro p s
  have hp : p.ClearUndoesAssign := Network.clearUndoesAssign_problem Network.triangle
  have hrun : (({} : Solver).solve p 4 s).1.map (fun r => (r.solved, r.effort.backtracks)) = some (false, 4) := by cbv
  obtain ⟨r, hr, hpair⟩ := Option.map_eq_some_iff.mp hrun
  obtain ⟨hfail, hback⟩ := Prod.mk.inj hpair
  have hdigits : Sudoku.Board.stuck.Digits := by decide +kernel
  have hstuck : (Sudoku.Board.stuck.solve? [] {}).1.map Run.solved = some false := by cbv
  obtain ⟨run, hrun', hfail'⟩ := Option.map_eq_some_iff.mp hstuck
  exact ⟨hp, ⟨r, hr, hfail, hback, solve_failed_restores.1 _ _ _ p hp {} 4 s r hr hfail⟩, hdigits, run, hrun', hfail',
    solve_failed_restores.2.2 _ hdigits [] {} run hrun' hfail'⟩

open Assignment in
/-- In the natural order, a search that succeeds on a network leaves the first completion of all: along the variables
that were open its values come, in lexicographic order, before those of every other one.  On a board of digits and
blanks it leaves the first filling, along the blanks. -/
theorem Solver.solve_natural_precedes :
    (∀ (σ ν α : Type) [DecidableEq ν] [LinearOrder α] (n : Network ν α) (p : Problem σ ν α)
        (value : σ → Assignment ν α), n.Presents p value → n.Checks p →
      ∀ solver : Solver, solver.order = .natural → ∀ (levels : Nat) (s : σ), p.levels s ≤ levels →
        ∃ r, (solver.solve p levels s).1 = some r ∧
          (r.solved = true → n.Fills (value s) (value r.state) ∧
            ∀ f, n.Fills (value s) f → Precedes (p.openVars s) (value r.state) f)) ∧
    ∀ b : Sudoku.Board, b.Digits → ∀ solver : Solver, solver.order = .natural →
      ∃ run, (b.solve? [] solver).1 = some run ∧
        (run.solved = true → b.Fills run.state.state ∧
          ∀ f, b.Fills f → Precedes b.blanks run.state.state.value f.value) := by
  refine ⟨fun σ ν α _ _ n p value hp hc solver horder levels s hl => ?_, fun b hb solver horder => ?_⟩
  · obtain ⟨r, hr, hsettles⟩ := hp.branch_settles hc .natural 0 hl
    refine ⟨r, by rw [solve, horder, hr], fun hok => ⟨hsettles.fills hok, fun f hf => ?_⟩⟩
    exact hp.branch_precedes hc hl hr hok hf
  · have hl : (Sudoku.problem.openVars b).length < Sudoku.problem.levels b := Nat.lt_succ_self _
    obtain ⟨r, hr, hsettles⟩ := Sudoku.presents_network.branch_settles Sudoku.checks_network .natural 0 hl
    have hmap := Sudoku.Board.solve?_map_state hb solver
    rw [horder, hr] at hmap
    obtain ⟨run, hrun, rfl⟩ := Option.map_eq_some_iff.mp hmap
    refine ⟨run, hrun, fun hok => ⟨Sudoku.Board.fills_iff.mp (hsettles.fills hok), fun f hf => ?_⟩⟩
    exact Sudoku.presents_network.branch_precedes Sudoku.checks_network hl hr hok (Sudoku.Board.fills_iff.mpr hf)

/-- The triangle with its colours out of order. -/
def Network.shuffledTriangle : Network (Fin 3) Nat := { Network.triangle with base := fun _ => [2, 0, 1] }

instance (u : Fin 3) (x : Nat) (v : Fin 3) (y : Nat) : Decidable (Network.shuffledTriangle.compatible u x v y) :=
  inferInstanceAs (Decidable (x ≠ y))

set_option maxRecDepth 2048 in
open Assignment in
/-- With one corner in colour zero the other two take the colours one and two, in this order although the colours are
listed otherwise; and the one blank among ones takes the smallest digit left. -/
theorem Solver.solve_natural_precedes_triangle :
    let p := Network.shuffledTriangle.problem
    let s : Assignment (Fin 3) Nat := fun v => if v = 2 then some 0 else none
    let solver : Solver := { order := .natural }
    (∃ r, (solver.solve p 3 s).1 = some r ∧ [0, 1].filterMap r.state = [1, 2] ∧
      ∀ f, Network.shuffledTriangle.Fills s f → Precedes [0, 1] r.state f) ∧
    Sudoku.Board.ones.Digits ∧ ∃ run, (Sudoku.Board.ones.solve? [] solver).1 = some run ∧
      run.state.state.value 0 = some 2 ∧
      ∀ f, Sudoku.Board.ones.Fills f → Precedes [0] run.state.state.value f.value := by
  intro p s solver
  have hopen : p.openVars s = [0, 1] := by decide
  have hrun : (solver.solve p 3 s).1.map (fun r => (r.solved, [0, 1].filterMap r.state)) = some (true, [1, 2]) := by cbv
  obtain ⟨r, hr, hfirst⟩ := solve_natural_precedes.1 _ _ _ Network.shuffledTriangle p id
    (Network.presents_problem _) (Network.checks_problem _) solver rfl 3 s (by decide)
  rw [hr, Option.map_some] at hrun
  obtain ⟨hok, hvalues⟩ := Prod.mk.inj (Option.some.inj hrun)
  rw [hopen] at hfirst
  have hdigits : Sudoku.Board.ones.Digits := by decide +kernel
  have hblanks : Sudoku.Board.ones.blanks = [0] := by decide +kernel
  have hrun' : (Sudoku.Board.ones.solve? [] solver).1.map (fun run => (run.solved, run.state.state.value 0)) =
      some (true, some 2) := by cbv
  obtain ⟨run, hsolve, hfirst'⟩ := solve_natural_precedes.2 _ hdigits solver rfl
  rw [hsolve, Option.map_some] at hrun'
  obtain ⟨hok', hvalue⟩ := Prod.mk.inj (Option.some.inj hrun')
  rw [hblanks] at hfirst'
  exact ⟨⟨r, hr, hvalues, (hfirst hok).2⟩, hdigits, run, hsolve, hvalue, (hfirst' hok').2⟩

end TreeSearch
