import Mathlib
import TreeSearch.Constraint.Network
import TreeSearch.Proofs.Constraint.Course

/-!
# Assigning and clearing

What a search does to the state, where clearing a variable undoes its assignment.

* `Problem.Allows`: an assignment that a search may make at a state.
* `pending`: the assignments that changes have left standing; a clearing takes away the latest one of them.
* (failure) `Course.state_of_failed`: a failed search ends in the state that it began with, so that the values of a
  variable are all tried in the state in which its domain was listed.
* (choice) `Course.chosen`: every assignment is one that a search may make at the state it is made at; so what such
  changes keep holds at every step (`Chosen.keeps`).
* (nesting) `Course.exists_pending`: the changes are well nested; what they leave standing leads from the first state
  to the last one, and a failed search leaves nothing.
* (every run) `Solver.solve_disciplined`: the changes of every run are `Problem.Disciplined`.
-/

namespace TreeSearch

variable {σ ν α : Type}

/-- The assignments left standing by changes that began with those of `held`; the latest one comes first.  There is
no answer if a variable is cleared that is not the latest one assigned. -/
def pending [DecidableEq ν] : List (ν × α) → List (Change ν α) → Option (List (ν × α))
  | held, [] => some held
  | held, .assigned v x :: cs => pending ((v, x) :: held) cs
  | [], .cleared _ :: _ => none
  | (u, _) :: held, .cleared v :: cs => if u = v then pending held cs else none

private theorem pending_append [DecidableEq ν] (held : List (ν × α)) (cs cs' : List (Change ν α)) :
    pending held (cs ++ cs') = (pending held cs).bind fun held' => pending held' cs' := by
  induction cs generalizing held with
  | nil => rfl
  | cons c cs ih =>
    cases c with
    | assigned v x => exact ih _
    | cleared v =>
      cases held with
      | nil => rfl
      | cons a held =>
        simp only [List.cons_append, pending]
        split
        · exact ih held
        · rfl

namespace Problem

/-- The state after the assignments of a list; the latest one comes first. -/
def assignAll (p : Problem σ ν α) (s : σ) : List (ν × α) → σ
  | [] => s
  | (v, x) :: held => p.assign (p.assignAll s held) v x

private theorem assignAll_append (p : Problem σ ν α) (s : σ) (held held' : List (ν × α)) :
    p.assignAll s (held ++ held') = p.assignAll (p.assignAll s held') held := by
  induction held with
  | nil => rfl
  | cons a held ih => rw [List.cons_append, assignAll, assignAll, ih]

/-- A change that a search may make at a state: the next variable takes a value of its domain that passes the last
look, or a variable is cleared. -/
def Allows (p : Problem σ ν α) (order : VariableOrder) (s : σ) : Change ν α → Prop
  | .assigned v x => order.next p s = some v ∧ x ∈ p.domain s v ∧ p.admits s v x = true
  | .cleared _ => True

/-- Each of the changes may be made at the state that those before it lead to. -/
def Chosen (p : Problem σ ν α) (order : VariableOrder) (s : σ) (cs : List (Change ν α)) : Prop :=
  ∀ before c after, cs = before ++ c :: after → p.Allows order (p.replay s before) c

variable {p : Problem σ ν α} {order : VariableOrder}

theorem Chosen.nil {s : σ} : p.Chosen order s [] := by
  intro before c after h
  simp at h

theorem Chosen.cons {s : σ} {c : Change ν α} {cs : List (Change ν α)} (hc : p.Allows order s c)
    (h : p.Chosen order (p.change s c) cs) : p.Chosen order s (c :: cs) := by
  intro before d after heq
  rcases List.cons_eq_append_iff.mp heq with ⟨rfl, hd⟩ | ⟨before, rfl, rfl⟩
  · obtain ⟨rfl, -⟩ := List.cons.inj hd
    exact hc
  · exact h before d after rfl

theorem Chosen.append {s : σ} {cs cs' : List (Change ν α)} (h : p.Chosen order s cs)
    (h' : p.Chosen order (p.replay s cs) cs') : p.Chosen order s (cs ++ cs') := by
  intro before d after heq
  rcases List.append_eq_append_iff.mp heq with ⟨rest, rfl, rfl⟩ | ⟨rest, rfl, hrest⟩
  · rw [replay_append]
    exact h' rest d after rfl
  · rcases List.cons_eq_append_iff.mp hrest with ⟨rfl, hd⟩ | ⟨rest, rfl, rfl⟩
    · have hd' := h' [] d after hd
      simpa using hd'
    · exact h before d rest rfl

/-- What is kept by clearing and by every assignment that a search may make holds after each of the changes. -/
theorem Chosen.keeps {I : σ → Prop} {s : σ} {cs : List (Change ν α)} (h : p.Chosen order s cs) (hs : I s)
    (hassign : ∀ t v x, I t → x ∈ p.domain t v → I (p.assign t v x)) (hclear : ∀ t v, I t → I (p.clear t v))
    {before after : List (Change ν α)} (heq : cs = before ++ after) : I (p.replay s before) := by
  induction before using List.reverseRecOn generalizing after with
  | nil => exact hs
  | append_singleton before c ih =>
    rw [List.append_assoc, List.singleton_append] at heq
    have hallowed := h before c after heq
    have hbefore := ih heq
    rw [replay_append]
    cases c with
    | assigned v x => exact hassign _ v x hbefore hallowed.2.1
    | cleared v => exact hclear _ v hbefore

/-- The task may come up at the state: its variable is the next one, and its values are in the domain. -/
def Offers (p : Problem σ ν α) (order : VariableOrder) (s : σ) : Task ν α → Prop
  | .enter => True
  | .values v xs => order.next p s = some v ∧ ∀ x ∈ xs, x ∈ p.domain s v

theorem Offers.tail {s : σ} {v : ν} {x : α} {xs : List α} (h : p.Offers order s (.values v (x :: xs))) :
    p.Offers order s (.values v xs) :=
  ⟨h.1, fun y hy => h.2 y (List.mem_cons_of_mem _ hy)⟩

theorem Offers.clear_assign (hp : p.ClearUndoesAssign) {s : σ} {v : ν} {x : α} {xs : List α}
    (h : p.Offers order s (.values v (x :: xs))) : p.clear (p.assign s v x) v = s :=
  hp s v (VariableOrder.next_mem h.1) x (h.2 x (List.mem_cons_self ..))

variable [LE α] [DecidableLE α]

theorem offers_domain {s : σ} {v : ν} (h : order.next p s = some v) :
    p.Offers order s (.values v (p.domain s v).mergeSort) :=
  ⟨h, fun _ hx => List.mem_mergeSort.mp hx⟩

section

variable {task : Task ν α} {depth : Nat} {s : σ} {cs : List (Change ν α)} {r : Run σ}

/-- A failed search ends in the state that it began with. -/
theorem Course.state_of_failed (hp : p.ClearUndoesAssign) (h : p.Course order task depth s cs r)
    (ht : p.Offers order s task) (hr : r.solved = false) : r.state = s := by
  induction h with
  | complete => cases hr
  | stuck => rfl
  | branch _ hv _ ih => exact ih (offers_domain hv) hr
  | exhausted => rfl
  | refused _ _ ih => exact ih ht.tail hr
  | solved _ _ hok => rw [hok] at hr; cases hr
  | failed _ _ hfail _ ih ihrest =>
    -- the values left are tried in the first state again
    have hback := ih trivial hfail
    rw [hback, ht.clear_assign hp] at ihrest
    exact ihrest ht.tail hr

/-- After a failure below, clearing the variable gives back the state in which it was assigned. -/
theorem Course.clear_of_failed (hp : p.ClearUndoesAssign) {v : ν} {x : α} {xs : List α}
    (h : p.Course order .enter depth (p.assign s v x) cs r) (hr : r.solved = false)
    (ht : p.Offers order s (.values v (x :: xs))) : p.clear r.state v = s := by
  rw [h.state_of_failed hp trivial hr]
  exact ht.clear_assign hp

/-- Every assignment is one that a search may make at the state it is made at. -/
theorem Course.chosen (hp : p.ClearUndoesAssign) (h : p.Course order task depth s cs r) (ht : p.Offers order s task) :
    p.Chosen order s cs := by
  induction h with
  | complete => exact .nil
  | stuck => exact .nil
  | branch _ hv _ ih => exact ih (offers_domain hv)
  | exhausted => exact .nil
  | refused _ _ ih => exact ih ht.tail
  | solved hx _ _ ih => exact .cons ⟨ht.1, ht.2 _ (List.mem_cons_self ..), hx⟩ (ih trivial)
  | @failed depth s v x xs cs cs' r rest hx hr hfail hrest ih ihrest =>
    have hassigned : p.Chosen order s (.assigned v x :: cs) :=
      .cons ⟨ht.1, ht.2 _ (List.mem_cons_self ..), hx⟩ (ih trivial)
    have hclear := hr.clear_of_failed hp hfail ht
    refine hassigned.append (.cons trivial ?_)
    rw [replay_assigned, hr.replay_eq]
    show p.Chosen order (p.clear r.state v) cs'
    rw [hclear] at ihrest ⊢
    exact ihrest ht.tail

/-- The changes are well nested, and what they leave standing leads from the first state to the last one. -/
theorem Course.exists_pending [DecidableEq ν] (hp : p.ClearUndoesAssign) (h : p.Course order task depth s cs r)
    (ht : p.Offers order s task) :
    ∃ held, (∀ below, pending below cs = some (held ++ below)) ∧ r.state = p.assignAll s held ∧
      (r.solved = false → held = []) := by
  induction h with
  | complete => exact ⟨[], fun _ => rfl, rfl, fun _ => rfl⟩
  | stuck => exact ⟨[], fun _ => rfl, rfl, fun _ => rfl⟩
  | branch _ hv _ ih => exact ih (offers_domain hv)
  | exhausted => exact ⟨[], fun _ => rfl, rfl, fun _ => rfl⟩
  | refused _ _ ih => exact ih ht.tail
  | @solved depth s v x xs cs r _ _ hok ih =>
    -- the first assignment stays, below all later ones
    obtain ⟨held, hheld, hstate, -⟩ := ih trivial
    refine ⟨held ++ [(v, x)], ?_, ?_, ?_⟩
    · intro below
      rw [pending, hheld, List.append_assoc]
      rfl
    · rw [hstate, assignAll_append]
      rfl
    · intro hfail
      rw [hok] at hfail
      cases hfail
  | @failed depth s v x xs cs cs' r rest _ hr hfail _ ih ihrest =>
    -- nothing is left standing above the first assignment when its variable is cleared
    obtain ⟨held, hheld, -, hnil⟩ := ih trivial
    obtain rfl := hnil hfail
    rw [hr.clear_of_failed hp hfail ht] at ihrest
    obtain ⟨held', hheld', hstate', hnil'⟩ := ihrest ht.tail
    refine ⟨held', ?_, hstate', hnil'⟩
    intro below
    rw [pending_append, pending, hheld]
    simpa [pending] using hheld' below

end

end Problem

/-- What is asked of the changes that lead a search from the state `s` to the end of the run `r`. -/
structure Problem.Disciplined [DecidableEq ν] (p : Problem σ ν α) (order : VariableOrder) (s : σ)
    (cs : List (Change ν α)) (r : Run σ) : Prop where
  /-- A variable is assigned where it is the next one, its domain lists the value, and the last look accepts it. -/
  chosen : ∀ before v x after, cs = before ++ .assigned v x :: after →
    order.next p (p.replay s before) = some v ∧ x ∈ p.domain (p.replay s before) v ∧
      p.admits (p.replay s before) v x = true
  /-- Only the latest assignment is cleared; a failure leaves none, and those left lead to the last state. -/
  nested : ∃ held, pending [] cs = some held ∧ (r.solved = false → held = []) ∧ r.state = p.assignAll s held
  complete : r.solved = true → p.complete r.state = true

/-- Where clearing undoes assigning, every run of the solver is disciplined. -/
theorem Solver.solve_disciplined [DecidableEq ν] [LE α] [DecidableLE α] {p : Problem σ ν α} (hp : p.ClearUndoesAssign)
    (solver : Solver) {levels : Nat} {s : σ} {r : Run σ} (h : (solver.solve p levels s).1 = some r) :
    ∃ run, (solver.solve p.recorded levels ⟨s, []⟩).1 = some run ∧ run.map Recorded.state = r ∧
      p.Disciplined solver.order s run.state.changes r := by
  obtain ⟨run, hrun, hmap, hcourse⟩ := solver.exists_course h
  obtain ⟨held, hheld, hstate, hnil⟩ := hcourse.exists_pending hp trivial
  refine ⟨run, hrun, hmap, ?_, ⟨held, ?_, hnil, hstate⟩, hcourse.complete_of_solved⟩
  · intro before v x after heq
    exact hcourse.chosen hp trivial before (.assigned v x) after heq
  · simpa using hheld []

/-- On the problem of a network clearing undoes assigning, since what is open has no value. -/
theorem Network.clearUndoesAssign_problem [DecidableEq ν] (n : Network ν α)
    [∀ u x v y, Decidable (n.compatible u x v y)] : n.problem.ClearUndoesAssign := by
  intro a v hv x _
  have hopen : a v = none := by simpa [problem] using (List.mem_filter.mp hv).2
  exact Assignment.unset_set hopen x

/-- The ends of an edge, in different colours; only the first one has a choice. -/
def Network.edge : Network (Fin 2) Nat where
  vars := [0, 1]
  base v := if v = 0 then [0, 1] else [0]
  compatible _ x _ y := x ≠ y
  nodup := by decide
  symm _ _ _ _ _ h := h.symm

instance (u : Fin 2) (x : Nat) (v : Fin 2) (y : Nat) : Decidable (Network.edge.compatible u x v y) :=
  inferInstanceAs (Decidable (x ≠ y))

/-- The first colour of the first end leaves none for the second end, and is taken back. -/
theorem Solver.solve_disciplined_edge :
    let p := Network.edge.problem
    let s : Assignment (Fin 2) Nat := fun _ => none
    let solver : Solver := { order := .natural }
    p.ClearUndoesAssign ∧ ∃ r run, (solver.solve p 3 s).1 = some r ∧
      (solver.solve p.recorded 3 ⟨s, []⟩).1 = some run ∧ run.map Recorded.state = r ∧
      run.state.changes = [.assigned 0 0, .cleared 0, .assigned 0 1, .assigned 1 0] ∧
      p.Disciplined .natural s run.state.changes r := by
  intro p s solver
  have hp : p.ClearUndoesAssign := Network.clearUndoesAssign_problem _
  have hends : (solver.solve p 3 s).1.isSome = true := by cbv
  have hchanges : (solver.solve p.recorded 3 ⟨s, []⟩).1.map (fun run => run.state.changes) =
      some [.assigned 0 0, .cleared 0, .assigned 0 1, .assigned 1 0] := by cbv
  obtain ⟨r, hr⟩ := Option.isSome_iff_exists.mp hends
  obtain ⟨run, hrun, hmap, hdisciplined⟩ := Solver.solve_disciplined hp solver hr
  rw [hrun] at hchanges
  exact ⟨hp, r, run, hr, hrun, hmap, Option.some.inj hchanges, hdisciplined⟩

end TreeSearch
