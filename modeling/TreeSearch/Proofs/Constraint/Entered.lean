import TreeSearch.Proofs.Constraint.Accounting

/-!
# The states that a search enters

A search enters the state that it begins with, and the state after each assignment.  Where states are read as partial
assignments and no domain repeats a value, all of them are different, whichever variable comes next and whatever the
last look at a value asks.

* `Problem.entered`: the states entered while changes are made, and `Course.length_entered`: how many there are.
* (below) `Course.extends_of_mem_entered`: each of them extends the first one; `Course.value_of_mem_entries`: while
  the values of a variable are tried, it has one of them.
* (apart) `Course.nodup_entered`: two of them differ.  At the last state above both, either one of them is that state,
  and the next variable is still open there, or that variable has two different values.
* (every run) `Solver.solve_enters_once`.
-/

namespace TreeSearch

variable {σ ν α : Type}

/-- The assignment `b` keeps what `a` gives. -/
def Assignment.Extends (b a : Assignment ν α) : Prop := ∀ v x, a v = some x → b v = some x

namespace Assignment

variable {a b c : Assignment ν α}

theorem Extends.refl (a : Assignment ν α) : a.Extends a := fun _ _ h => h

theorem Extends.trans (hc : c.Extends b) (hb : b.Extends a) : c.Extends a := fun v x h => hc v x (hb v x h)

/-- What is set where nothing was is an extension. -/
private theorem extends_set [DecidableEq ν] {v : ν} (h : a v = none) (x : α) : (a.set v x).Extends a := by
  intro u y hy
  have huv : u ≠ v := by
    rintro rfl
    rw [h] at hy
    cases hy
  rw [a.set_of_ne huv, hy]

end Assignment

/-- The values of the task are all different. -/
def Task.Distinct : Task ν α → Prop
  | .enter => True
  | .values _ xs => xs.Nodup

namespace Problem

/-! ### States entered -/

/-- The states after the assignments among changes made in turn. -/
def entries (p : Problem σ ν α) : σ → List (Change ν α) → List σ
  | _, [] => []
  | s, .assigned v x :: cs => p.assign s v x :: p.entries (p.assign s v x) cs
  | s, .cleared v :: cs => p.entries (p.clear s v) cs

/-- The states that a search enters by changes made in turn; the first one is entered before any change. -/
def entered (p : Problem σ ν α) (s : σ) (cs : List (Change ν α)) : List σ := s :: p.entries s cs

private theorem entries_assigned (p : Problem σ ν α) (s : σ) (v : ν) (x : α) (cs : List (Change ν α)) :
    p.entries s (.assigned v x :: cs) = p.entered (p.assign s v x) cs := rfl

private theorem entries_append (p : Problem σ ν α) (s : σ) (cs cs' : List (Change ν α)) :
    p.entries s (cs ++ cs') = p.entries s cs ++ p.entries (p.replay s cs) cs' := by
  induction cs generalizing s with
  | nil => rfl
  | cons c cs ih =>
    cases c with
    | assigned v x => exact congrArg _ (ih _)
    | cleared v => exact ih _

private theorem length_entries (p : Problem σ ν α) (s : σ) (cs : List (Change ν α)) :
    (p.entries s cs).length = assignments cs := by
  induction cs generalizing s with
  | nil => rfl
  | cons c cs ih =>
    cases c with
    | assigned v x => rw [entries, List.length_cons, ih, assignments_assigned]
    | cleared v => rw [entries, ih, assignments_cleared]

variable {p : Problem σ ν α} {order : VariableOrder} {task : Task ν α} {depth : Nat} {s : σ} {cs : List (Change ν α)}
  {r : Run σ}

section

variable [LE α] [DecidableLE α]

/-- The states entered are those counted, and the complete one in which a search succeeds. -/
theorem Course.length_entered (h : p.Course order .enter depth s cs r) :
    (p.entered s cs).length = r.effort.nodes + r.solved.toNat := by
  rw [entered, List.length_cons, p.length_entries, ← h.nodes_add_solved]
  simp [Task.counted]

/-- After a failure the other values are tried in the first state again. -/
theorem Course.entries_of_failed (hp : p.ClearUndoesAssign) {v : ν} {x : α} {xs : List α}
    (h : p.Course order .enter depth (p.assign s v x) cs r) (hr : r.solved = false)
    (ht : p.Offers order s (.values v (x :: xs))) (cs' : List (Change ν α)) :
    p.entries s (.assigned v x :: cs ++ .cleared v :: cs') = p.entered (p.assign s v x) cs ++ p.entries s cs' := by
  rw [entries_append, entries_assigned, replay_assigned, h.replay_eq, entries, h.clear_of_failed hp hr ht]

end

/-! ### Below a state -/

variable [DecidableEq ν] {vars : List ν} {value : σ → Assignment ν α}

/-- What extends the state with a value that is tried extends the state, and has that value. -/
private theorem Reads.extends_of_offers (hp : p.Reads vars value) {v : ν} {x : α} {xs : List α}
    (ht : p.Offers order s (.values v (x :: xs))) {a : Assignment ν α} (ha : a.Extends (value (p.assign s v x))) :
    a.Extends (value s) ∧ a v = some x := by
  have hv := VariableOrder.next_mem ht.1
  have hopen : value s v = none := (hp.mem_openVars.mp hv).2
  rw [hp.value_assign s v hv x (ht.2 x (List.mem_cons_self ..))] at ha
  exact ⟨ha.trans (Assignment.extends_set hopen x), ha v x (Assignment.set_self ..)⟩

variable [LE α] [DecidableLE α]

/-- Every state entered extends the first one. -/
theorem Course.extends_of_mem_entered (hp : p.Reads vars value) (h : p.Course order task depth s cs r)
    (ht : p.Offers order s task) : ∀ t ∈ p.entered s cs, (value t).Extends (value s) := by
  have hnone : ∀ {s : σ}, ∀ t ∈ p.entered s [], (value t).Extends (value s) := by
    intro s t hmem
    rw [List.mem_singleton.mp hmem]
    exact .refl _
  induction h with
  | complete => exact hnone
  | stuck => exact hnone
  | branch _ hv _ ih => exact ih (offers_domain hv)
  | exhausted => exact hnone
  | refused _ _ ih => exact ih ht.tail
  | solved _ _ _ ih =>
    refine List.forall_mem_cons.mpr ⟨.refl _, fun t hmem => ?_⟩
    exact (hp.extends_of_offers ht (ih trivial t hmem)).1
  | failed _ hr hfail _ ih ihrest =>
    rw [hr.clear_of_failed hp.clear_assign hfail ht] at ihrest
    rw [entered, hr.entries_of_failed hp.clear_assign hfail ht, List.forall_mem_cons, List.forall_mem_append]
    refine ⟨.refl _, fun t hmem => ?_, fun t hmem => ?_⟩
    · exact (hp.extends_of_offers ht (ih trivial t hmem)).1
    · exact ihrest ht.tail t (List.mem_cons_of_mem _ hmem)

/-- Every state entered below a value has that value. -/
private theorem Course.value_of_mem_entered (hp : p.Reads vars value) {v : ν} {x : α} {xs : List α}
    (h : p.Course order .enter depth (p.assign s v x) cs r) (ht : p.Offers order s (.values v (x :: xs))) :
    ∀ t ∈ p.entered (p.assign s v x) cs, value t v = some x :=
  fun t hmem => (hp.extends_of_offers ht (h.extends_of_mem_entered hp trivial t hmem)).2

/-- Every state entered while the values of a variable are tried has one of them. -/
theorem Course.value_of_mem_entries (hp : p.Reads vars value) {v : ν} {xs : List α}
    (h : p.Course order (.values v xs) depth s cs r) (ht : p.Offers order s (.values v xs)) :
    ∀ t ∈ p.entries s cs, ∃ x ∈ xs, value t v = some x := by
  induction xs generalizing cs r with
  | nil =>
    cases h
    exact List.forall_mem_nil _
  | cons x xs ih =>
    have hlater : ∀ {cs r}, p.Course order (.values v xs) depth s cs r →
        ∀ t ∈ p.entries s cs, ∃ y ∈ x :: xs, value t v = some y := by
      intro cs r hrest t hmem
      obtain ⟨y, hy, hvalue⟩ := ih hrest ht.tail t hmem
      exact ⟨y, List.mem_cons_of_mem _ hy, hvalue⟩
    cases h with
    | refused _ hrest => exact hlater hrest
    | solved _ hr _ => exact fun t hmem => ⟨x, List.mem_cons_self .., hr.value_of_mem_entered hp ht t hmem⟩
    | failed _ hr hfail hrest =>
      rw [hr.clear_of_failed hp.clear_assign hfail ht] at hrest
      rw [hr.entries_of_failed hp.clear_assign hfail ht, List.forall_mem_append]
      exact ⟨fun t hmem => ⟨x, List.mem_cons_self .., hr.value_of_mem_entered hp ht t hmem⟩, hlater hrest⟩

/-! ### Apart -/

/-- A state in which a variable is open is not entered below a value of that variable. -/
private theorem Course.notMem_entered (hp : p.Reads vars value) {v : ν} {x : α} {xs : List α}
    (h : p.Course order .enter depth (p.assign s v x) cs r) (ht : p.Offers order s (.values v (x :: xs))) :
    value s ∉ (p.entered (p.assign s v x) cs).map value := by
  intro hmem
  obtain ⟨t, ht', heq⟩ := List.mem_map.mp hmem
  have hopen : value s v = none := (hp.mem_openVars.mp (VariableOrder.next_mem ht.1)).2
  have hvalue := h.value_of_mem_entered hp ht t ht'
  rw [heq, hopen] at hvalue
  cases hvalue

/-- No two of the states entered are the same partial assignment. -/
theorem Course.nodup_entered (hp : p.Reads vars value) (hdomain : ∀ s, ∀ v ∈ p.openVars s, (p.domain s v).Nodup)
    (h : p.Course order task depth s cs r) (ht : p.Offers order s task) (hdistinct : task.Distinct) :
    ((p.entered s cs).map value).Nodup := by
  induction h with
  | complete => exact List.nodup_singleton _
  | stuck => exact List.nodup_singleton _
  | branch _ hv _ ih =>
    refine ih (offers_domain hv) ?_
    exact (List.mergeSort_perm _ _).nodup_iff.mpr (hdomain _ _ (VariableOrder.next_mem hv))
  | exhausted => exact List.nodup_singleton _
  | refused _ _ ih => exact ih ht.tail hdistinct.of_cons
  | solved _ hr _ ih => exact List.nodup_cons.mpr ⟨hr.notMem_entered hp ht, ih trivial trivial⟩
  | @failed depth s v x xs cs cs' r rest _ hr hfail hrest ih ihrest =>
    -- `s` is the last state above both; what is entered before and after the clearing differs in the value of `v`
    rw [hr.clear_of_failed hp.clear_assign hfail ht] at hrest ihrest
    obtain ⟨hx, hxs⟩ := List.nodup_cons.mp hdistinct
    obtain ⟨hsrest, hnodup⟩ := List.nodup_cons.mp (ihrest ht.tail hxs)
    have happart : ∀ a ∈ (p.entered (p.assign s v x) cs).map value, ∀ b ∈ (p.entries s cs').map value, a ≠ b := by
      rw [List.forall_mem_map]
      intro t ht' b hb heq
      obtain ⟨t', ht'', rfl⟩ := List.mem_map.mp hb
      obtain ⟨y, hy, hvalue⟩ := hrest.value_of_mem_entries hp ht.tail t' ht''
      rw [← heq, hr.value_of_mem_entered hp ht t ht'] at hvalue
      obtain rfl := Option.some.inj hvalue
      exact hx hy
    rw [entered, hr.entries_of_failed hp.clear_assign hfail ht, List.map_cons, List.map_append, List.nodup_cons,
      List.mem_append, List.nodup_append]
    exact ⟨not_or_intro (hr.notMem_entered hp ht) hsrest, ih trivial trivial, hnodup, happart⟩

end Problem

/-- The problem of a network lists no value twice if the network does not, whatever the last look at a value asks. -/
private theorem Network.nodup_domain_problem [DecidableEq ν] (n : Network ν α)
    [∀ u x v y, Decidable (n.compatible u x v y)]
    (hbase : ∀ v ∈ n.vars, (n.base v).Nodup) (a : Assignment ν α) {v : ν} (hv : v ∈ n.problem.openVars a) :
    (n.problem.domain a v).Nodup :=
  (hbase v (n.presents_problem.mem_openVars.mp hv).1).filter _

/-- Where states are partial assignments and no domain repeats a value, a run with more levels than open variables
ends.  The states that it enters are different partial assignments, and each of them extends the first one; they are
those counted, and the complete one in which the run succeeds. -/
theorem Solver.solve_enters_once [DecidableEq ν] [LE α] [DecidableLE α] {p : Problem σ ν α} {vars : List ν}
    {value : σ → Assignment ν α} (hp : p.Reads vars value)
    (hdomain : ∀ s, ∀ v ∈ p.openVars s, (p.domain s v).Nodup) (solver : Solver) {levels : Nat} {s : σ}
    (hl : p.openCount s < levels) :
    ∃ r run, (solver.solve p levels s).1 = some r ∧ (solver.solve p.recorded levels ⟨s, []⟩).1 = some run ∧
      run.map Recorded.state = r ∧
      ((p.entered s run.state.changes).map value).Nodup ∧
      (∀ t ∈ p.entered s run.state.changes, (value t).Extends (value s)) ∧
      (p.entered s run.state.changes).length = r.effort.nodes + r.solved.toNat := by
  obtain ⟨r, hbranch⟩ := hp.closing.exists_branch solver.order 0 hl
  have hr : (solver.solve p levels s).1 = some r := by rw [solve, hbranch]
  obtain ⟨run, hrun, hmap, hcourse⟩ := solver.exists_course hr
  exact ⟨r, run, hr, hrun, hmap, hcourse.nodup_entered hp hdomain trivial trivial,
    hcourse.extends_of_mem_entered hp trivial, hcourse.length_entered⟩

/-- Eight states are entered until the triangle is coloured, if only the first corner may take the last colour. -/
theorem Solver.solve_enters_once_triangle :
    let admits : Assignment (Fin 3) Nat → Fin 3 → Nat → Bool := fun a _ x => (a 0).isNone || x != 2
    let p := { Network.triangle.problem with admits }
    let s : Assignment (Fin 3) Nat := fun _ => none
    p.Reads Network.triangle.vars id ∧ (∀ a, ∀ v ∈ p.openVars a, (p.domain a v).Nodup) ∧ p.openCount s < 4 ∧
      ∃ r run, (({} : Solver).solve p 4 s).1 = some r ∧ (({} : Solver).solve p.recorded 4 ⟨s, []⟩).1 = some run ∧
        r.solved = true ∧ (p.entered s run.state.changes).Nodup ∧ (p.entered s run.state.changes).length = 8 := by
  intro admits p s
  have hp : p.Reads Network.triangle.vars id := Network.triangle.reads_problem admits
  have hbase : ∀ v ∈ Network.triangle.vars, (Network.triangle.base v).Nodup := by decide
  have hdomain : ∀ a, ∀ v ∈ p.openVars a, (p.domain a v).Nodup := fun a v hv =>
    Network.triangle.nodup_domain_problem hbase a hv
  have hl : p.openCount s < 4 := by decide
  have hsolved : (({} : Solver).solve p 4 s).1.map (fun r => (r.solved, r.effort.nodes)) = some (true, 7) := by cbv
  obtain ⟨r, run, hr, hrun, -, hnodup, -, hlength⟩ := solve_enters_once hp hdomain {} hl
  rw [hr, Option.map_some] at hsolved
  obtain ⟨hok, hnodes⟩ := Prod.mk.inj (Option.some.inj hsolved)
  rw [hnodes, hok] at hlength
  rw [List.map_id] at hnodup
  exact ⟨hp, hdomain, hl, r, run, hr, hrun, hok, hnodup, hlength⟩

end TreeSearch
