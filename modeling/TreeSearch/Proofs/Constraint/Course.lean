import TreeSearch.Proofs.Constraint.Simulation

/-!
# The course of a search

What backtracking does, rule by rule: `Problem.Course` relates a task at a state to the changes that the search makes
while it works the task off, and to the run that it ends with.

* (every run) `course_of_branch`: a run of the recorded problem follows the rules, and what it has recorded are the
  changes of the rules.
* (changes) `Course.replay_eq`: the changes lead to the state that the run ends in.
-/

namespace TreeSearch

variable {σ ν α : Type}

/-- What a search has to do at a state: to enter it, or to try the values of a list for a variable. -/
inductive Task (ν α : Type) where
  | enter
  | values (v : ν) (xs : List α)

namespace Problem

/-! ### Changes made in turn -/

/-- The state after one change. -/
def change (p : Problem σ ν α) (s : σ) : Change ν α → σ
  | .assigned v x => p.assign s v x
  | .cleared v => p.clear s v

/-- The state after changes made in turn. -/
def replay (p : Problem σ ν α) (s : σ) (cs : List (Change ν α)) : σ := cs.foldl p.change s

@[simp] theorem replay_nil (p : Problem σ ν α) (s : σ) : p.replay s [] = s := rfl

@[simp] theorem replay_assigned (p : Problem σ ν α) (s : σ) (v : ν) (x : α) (cs : List (Change ν α)) :
    p.replay s (.assigned v x :: cs) = p.replay (p.assign s v x) cs := rfl

@[simp] theorem replay_cleared (p : Problem σ ν α) (s : σ) (v : ν) (cs : List (Change ν α)) :
    p.replay s (.cleared v :: cs) = p.replay (p.clear s v) cs := rfl

theorem replay_append (p : Problem σ ν α) (s : σ) (cs cs' : List (Change ν α)) :
    p.replay s (cs ++ cs') = p.replay (p.replay s cs) cs' := List.foldl_append

/-! ### The rules -/

variable [LE α] [DecidableLE α]

/-- At the state `s`, entered at `depth`, the search works off the task by the changes `cs`, and ends with `r`. -/
inductive Course (p : Problem σ ν α) (order : VariableOrder) :
    Task ν α → Nat → σ → List (Change ν α) → Run σ → Prop
  | complete {depth s} (hs : p.complete s = true) : Course p order .enter depth s [] ⟨true, s, 0⟩
  | stuck {depth s} (hs : p.complete s = false) (hv : order.next p s = none) :
      Course p order .enter depth s [] ⟨false, s, .node depth⟩
  | branch {depth s v cs r} (hs : p.complete s = false) (hv : order.next p s = some v)
      (hr : Course p order (.values v (p.domain s v).mergeSort) depth s cs r) :
      Course p order .enter depth s cs (r.after (.node depth))
  | exhausted {depth s v} : Course p order (.values v []) depth s [] ⟨false, s, 0⟩
  | refused {depth s v x xs cs r} (hx : p.admits s v x = false) (hr : Course p order (.values v xs) depth s cs r) :
      Course p order (.values v (x :: xs)) depth s cs r
  | solved {depth s v x xs cs r} (hx : p.admits s v x = true)
      (hr : Course p order .enter (depth + 1) (p.assign s v x) cs r) (hok : r.solved = true) :
      Course p order (.values v (x :: xs)) depth s (.assigned v x :: cs) r
  | failed {depth s v x xs cs cs' r rest} (hx : p.admits s v x = true)
      (hr : Course p order .enter (depth + 1) (p.assign s v x) cs r) (hfail : r.solved = false)
      (hrest : Course p order (.values v xs) depth (p.clear r.state v) cs' rest) :
      Course p order (.values v (x :: xs)) depth s (.assigned v x :: cs ++ .cleared v :: cs')
        (rest.after (r.effort + .backtrack))

variable {p : Problem σ ν α} {order : VariableOrder}

/-- The changes lead to the state that the run ends in. -/
theorem Course.replay_eq {task : Task ν α} {depth : Nat} {s : σ} {cs : List (Change ν α)} {r : Run σ}
    (h : p.Course order task depth s cs r) : p.replay s cs = r.state := by
  induction h with
  | complete => rfl
  | stuck => rfl
  | branch _ _ _ ih => exact ih
  | exhausted => rfl
  | refused _ _ ih => exact ih
  | solved _ _ _ ih => exact ih
  | failed _ _ _ _ ih ihrest => rw [replay_append, replay_assigned, ih, replay_cleared, ihrest, Run.state_after]

/-- A successful run ends in a complete state. -/
theorem Course.complete_of_solved {task : Task ν α} {depth : Nat} {s : σ} {cs : List (Change ν α)} {r : Run σ}
    (h : p.Course order task depth s cs r) (hr : r.solved = true) : p.complete r.state = true := by
  induction h with
  | complete hs => exact hs
  | stuck => cases hr
  | branch _ _ _ ih => exact ih hr
  | exhausted => cases hr
  | refused _ _ ih => exact ih hr
  | solved _ _ _ ih => exact ih hr
  | failed _ _ _ _ _ ihrest => exact ihrest hr

/-! ### Every run follows the rules -/

private theorem course_of_tryValues {v : ν} {depth : Nat}
    {descend : Recorded σ ν α → Option (Run (Recorded σ ν α))}
    (hdescend : ∀ t r, descend t = some r → ∃ cs,
      p.Course order .enter (depth + 1) t.state cs (r.map Recorded.state) ∧ r.state.latest = cs.reverse ++ t.latest)
    {xs : List α} {t : Recorded σ ν α} {r : Run (Recorded σ ν α)}
    (h : p.recorded.tryValues v descend xs t = some r) :
    ∃ cs, p.Course order (.values v xs) depth t.state cs (r.map Recorded.state) ∧
      r.state.latest = cs.reverse ++ t.latest := by
  induction xs generalizing t r with
  | nil =>
    obtain rfl := Option.some.inj h
    exact ⟨[], .exhausted, rfl⟩
  | cons x xs ih =>
    rw [tryValues] at h
    split at h
    · rename_i hx
      have hx' : p.admits t.state v x = true := hx
      obtain ⟨r₁, hr₁, h⟩ := Option.bind_eq_some_iff.mp h
      obtain ⟨cs, hcourse, hlatest⟩ := hdescend _ r₁ hr₁
      split at h
      · rename_i hok
        obtain rfl := Option.some.inj h
        refine ⟨.assigned v x :: cs, .solved hx' hcourse hok, ?_⟩
        rw [hlatest]
        simp [recorded]
      · rename_i hfail
        obtain ⟨rest, hrest, h⟩ := Option.bind_eq_some_iff.mp h
        obtain rfl := Option.some.inj h
        obtain ⟨cs', hcourse', hlatest'⟩ := ih hrest
        refine ⟨.assigned v x :: cs ++ .cleared v :: cs', ?_, ?_⟩
        · exact .failed hx' hcourse (by simpa using hfail) hcourse'
        · rw [Run.state_after, hlatest']
          simp [recorded, hlatest]
    · rename_i hx
      obtain ⟨cs, hcourse, hlatest⟩ := ih h
      exact ⟨cs, .refused (by simpa [recorded] using hx) hcourse, hlatest⟩

/-- What a run of the recorded problem has recorded are the changes of a course. -/
theorem course_of_branch {levels depth : Nat} {t : Recorded σ ν α} {r : Run (Recorded σ ν α)}
    (h : p.recorded.branch order levels depth t = some r) :
    ∃ cs, p.Course order .enter depth t.state cs (r.map Recorded.state) ∧ r.state.latest = cs.reverse ++ t.latest := by
  induction levels generalizing depth t r with
  | zero => cases h
  | succ levels ih =>
    rw [branch] at h
    split at h
    · rename_i hs
      obtain rfl := Option.some.inj h
      exact ⟨[], .complete hs, rfl⟩
    · rename_i hs
      have hs' : p.complete t.state = false := by simpa [recorded] using hs
      split at h
      · rename_i hv
        obtain rfl := Option.some.inj h
        exact ⟨[], .stuck hs' hv, rfl⟩
      · rename_i v hv
        obtain ⟨r₁, hr₁, h⟩ := Option.bind_eq_some_iff.mp h
        obtain rfl := Option.some.inj h
        obtain ⟨cs, hcourse, hlatest⟩ := course_of_tryValues (fun _ _ => ih) hr₁
        exact ⟨cs, .branch hs' hv hcourse, hlatest⟩

end Problem

namespace Solver

variable [LE α] [DecidableLE α] {p : Problem σ ν α} {solver : Solver} {levels : Nat} {s : σ} {r : Run σ}

theorem branch_of_solve (h : (solver.solve p levels s).1 = some r) : p.branch solver.order levels 0 s = some r := by
  unfold solve at h
  split at h
  · cases h
  · rename_i hr
    rw [hr, ← Option.some.inj h]

/-- A run of the solver is also made, and recorded, on the recorded problem, and follows the rules there. -/
theorem exists_course (h : (solver.solve p levels s).1 = some r) :
    ∃ run, (solver.solve p.recorded levels ⟨s, []⟩).1 = some run ∧ run.map Recorded.state = r ∧
      p.Course solver.order .enter 0 s run.state.changes r := by
  have hbranch := branch_of_solve h
  rw [show s = (⟨s, []⟩ : Recorded σ ν α).state from rfl, p.branch_recorded] at hbranch
  obtain ⟨run, hrun, rfl⟩ := Option.map_eq_some_iff.mp hbranch
  obtain ⟨cs, hcourse, hlatest⟩ := Problem.course_of_branch hrun
  refine ⟨run, by rw [solve, hrun], rfl, ?_⟩
  rw [Recorded.changes, hlatest]
  simpa using hcourse

/-- What a run on the recorded problem has recorded are the changes of a course. -/
theorem course_of_recorded {run : Run (Recorded σ ν α)} (h : (solver.solve p.recorded levels ⟨s, []⟩).1 = some run) :
    p.Course solver.order .enter 0 s run.state.changes (run.map Recorded.state) := by
  obtain ⟨cs, hcourse, hlatest⟩ := Problem.course_of_branch (branch_of_solve h)
  rw [Recorded.changes, hlatest]
  simpa using hcourse

end Solver

end TreeSearch
