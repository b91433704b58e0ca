import TreeSearch.Proofs.Constraint.Termination
import TreeSearch.Proofs.Sudoku.RoundTrip
import TreeSearch.Proofs.Sudoku.Solved

/-!
# What stays true of a board

A board that has been read from a text is changed by putting candidates, by emptying cells and by searches, in any
order and for as long as one likes.

* `Board.Arises start b`: the board `b` comes up on the way from `start`; those in the middle of a search count as well.
* (one change) `Consistent.put`, `Consistent.erase`: putting a candidate contradicts nothing, and neither does a blank;
  `Digits.put_candidate`, `Digits.erase` say the same of digits.
* (every change) `Arises.keeps`: what these two changes keep is kept by searches, which make no others.
* (every board) `Arises.sound_of_ofText`.
-/

namespace TreeSearch.Sudoku.Board

/-- The boards that come up from `start` on.  A candidate is put into a cell, whatever is there; a cell is emptied; or a
search is made, in any order and with any last look at the values, and comes by a board. -/
inductive Arises (start : Board) : Board → Prop
  | start : Arises start start
  | put {b : Board} {i : Cell} {xs : List Nat} {x : Nat} (h : Arises start b) (hxs : b.candidates? i = some xs)
      (hx : x ∈ xs) : Arises start (b.put i x)
  | erase {b : Board} (h : Arises start b) (i : Cell) : Arises start (b.erase i)
  | search {b : Board} (h : Arises start b) (admits : Board → Cell → Nat → Bool) (solver : Solver) (levels : Nat)
      {run : Run (Recorded Board Cell Nat)}
      (hrun : (solver.solve (Problem.recorded { problem with admits }) levels ⟨b, []⟩).1 = some run)
      {before after : List (Change Cell Nat)} (hchanges : run.state.changes = before ++ after) :
      Arises start (problem.replay b before)

/-- What holds at first, and is kept by putting a candidate and by emptying a cell, holds of every board that comes
up. -/
theorem Arises.keeps {I : Board → Prop} {start b : Board} (h : Arises start b) (hstart : I start)
    (hput : ∀ b i x, I b → x ∈ candidates b i → I (b.put i x)) (herase : ∀ b i, I b → I (b.erase i)) : I b := by
  induction h with
  | start => exact hstart
  | put _ hxs hx ih => exact hput _ _ _ ih (exists_mem_candidates?_iff.mp ⟨_, hxs, hx⟩).2
  | erase _ i ih => exact herase _ i ih
  | search _ admits solver levels hrun hchanges ih =>
    -- a search puts candidates and empties cells, and each candidate is one of the board that it is put on
    have hundo : Problem.ClearUndoesAssign { problem with admits } := clearUndoesAssign_problem
    have hchosen := (Solver.course_of_recorded hrun).chosen hundo trivial
    exact hchosen.keeps ih hput herase hchanges

/-! ### One change -/

theorem Digits.put_candidate {b : Board} (h : b.Digits) {i : Cell} {x : Nat} (hx : x ∈ b.candidates i) :
    (b.put i x).Digits :=
  h.put i (mem_candidates.mp hx).1.2

/-- A candidate contradicts no other cell. -/
theorem Consistent.put {b : Board} (h : b.Consistent) {i : Cell} {x : Nat} (hx : x ∈ b.candidates i) :
    (b.put i x).Consistent := by
  have hpeers := (mem_candidates.mp hx).2
  intro j k hjk hj
  rw [getElem_put] at hj ⊢
  rw [getElem_put]
  by_cases hij : i = j
  · subst hij
    rw [if_pos rfl, if_neg hjk.1]
    exact (hpeers k hjk.mem_peers).symm
  · rw [if_neg hij] at hj ⊢
    by_cases hik : i = k
    · subst hik
      rw [if_pos rfl]
      exact hpeers j hjk.symm.mem_peers
    · rw [if_neg hik]
      exact h j k hjk hj

/-- A blank contradicts no other cell. -/
theorem Consistent.erase {b : Board} (h : b.Consistent) (i : Cell) : (b.erase i).Consistent := by
  intro j k hjk hj
  rw [Board.erase, getElem_put] at hj ⊢
  rw [getElem_put]
  by_cases hij : i = j
  · rw [if_pos hij] at hj
    exact absurd rfl hj
  · rw [if_neg hij] at hj ⊢
    split
    · exact hj
    · exact h j k hjk hj

/-! ### Every board -/

private theorem Digits.candidates?_eq {b : Board} (h : b.Digits) (i : Cell) : b.candidates? i = some (b.candidates i) :=
  if_pos (h.readable i)

/-- On a board of digits and blanks every search has an answer. -/
private theorem Digits.exists_solve? {b : Board} (h : b.Digits) (veto : List Nat) (solver : Solver) :
    ∃ run, (b.solve? veto solver).1 = some run ∧
      (solver.solve (problem.vetoing veto).recorded (problem.levels b) ⟨b, []⟩).1 = some run := by
  obtain ⟨run, hlevels, -, -⟩ := solver.exists_run_of_closing (closing_problem veto) b
  have hrun := (hlevels _ ((problem.vetoing veto).openCount_lt_levels b)).2
  exact ⟨run, (congrArg Prod.fst (solve?_of_digits h veto solver)).trans hrun, hrun⟩

/-- Whatever board comes up from one that has been read: it holds digits and blanks; the candidates of all its cells
can be read; it has no contradiction unless there was one at first; and a search of it has an answer, comes by no other
boards than those that come up, and ends with one of them. -/
theorem Arises.sound_of_ofText {text : String} {start b : Board} (hstart : ofText text = .ok start)
    (h : Arises start b) :
    b.Digits ∧ (∀ i, b.candidates? i = some (b.candidates i)) ∧ (start.Consistent → b.Consistent) ∧
      ∀ (veto : List Nat) (solver : Solver), ∃ run, (b.solve? veto solver).1 = some run ∧
        (∀ before after, run.state.changes = before ++ after → Arises start (problem.replay b before)) ∧
        Arises start run.state.state := by
  have hdigits : b.Digits :=
    h.keeps (digits_ofText hstart) (fun _ _ _ hb hx => hb.put_candidate hx) fun _ i hb => hb.erase i
  have hconsistent : start.Consistent → b.Consistent :=
    fun hs => h.keeps hs (fun _ _ _ hb hx => hb.put hx) fun _ i hb => hb.erase i
  refine ⟨hdigits, hdigits.candidates?_eq, hconsistent, fun veto solver => ?_⟩
  obtain ⟨run, hrun, hrecorded⟩ := hdigits.exists_solve? veto solver
  have hsteps : ∀ before after, run.state.changes = before ++ after → Arises start (problem.replay b before) :=
    fun _ _ hchanges => h.search (problem.vetoing veto).admits solver _ hrecorded hchanges
  have hend : problem.replay b run.state.changes = run.state.state := (Solver.course_of_recorded hrecorded).replay_eq
  refine ⟨run, hrun, hsteps, ?_⟩
  rw [← hend]
  exact hsteps _ [] (List.append_nil _).symm

set_option maxRecDepth 2048 in
/-- A search of the beheaded board is left after its first step; a given is erased, and a candidate is put in. -/
theorem Arises.sound_of_ofText_beheaded :
    let text := String.ofList (beheaded.cells.toList.map Nat.digitChar)
    let b := ((beheaded.put 0 1).erase 80).put 1 2
    ofText text = .ok beheaded ∧ beheaded.Consistent ∧ Arises beheaded b ∧ b.Digits ∧ b.Consistent ∧
      b.candidates? 80 = some [8] ∧ ∃ run, (b.solve? [] {}).1 = some run ∧ Arises beheaded run.state.state := by
  intro text b
  have hsolved : turning.isSolved = true := by decide +kernel
  obtain ⟨hdigit, hdiff⟩ := isSolved_iff.mp hsolved
  have hdigits : turning.Digits := fun i => (hdigit i).2
  have hturning : turning.Consistent := fun i j hij _ => hdiff i j hij
  have hbeheaded : beheaded.Digits ∧ beheaded.Consistent := by
    rw [beheaded_eq]
    exact ⟨(hdigits.erase 0).erase 1, (hturning.erase 0).erase 1⟩
  have hread : ofText text = .ok beheaded := hbeheaded.1.ofText_map denotes_digitChar
  have hsearch : (Solver.solve { order := .natural } (Problem.recorded { problem with admits := fun _ _ _ => true }) 3
      ⟨beheaded, []⟩).1.map (fun run => run.state.changes) = some [.assigned 0 1, .assigned 1 2] := by cbv
  obtain ⟨run, hrun, hchanges⟩ := Option.map_eq_some_iff.mp hsearch
  have hsplit : run.state.changes = [.assigned 0 1] ++ [.assigned 1 2] := hchanges
  have hstep : Arises beheaded (beheaded.put 0 1) := Arises.start.search _ _ 3 hrun hsplit
  have hcandidates : ((beheaded.put 0 1).erase 80).candidates? 1 = some [2] := by decide +kernel
  have harises : Arises beheaded b := (hstep.erase 80).put hcandidates (List.mem_singleton_self 2)
  have hlast : b.candidates 80 = [8] := by decide +kernel
  obtain ⟨hb, hreadable, hkept, hsolve⟩ := Arises.sound_of_ofText hread harises
  obtain ⟨run', hrun', -, hend⟩ := hsolve [] {}
  exact ⟨hread, hbeheaded.2, harises, hb, hkept hbeheaded.2, (hreadable 80).trans (congrArg some hlast), run', hrun',
    hend⟩

end TreeSearch.Sudoku.Board
