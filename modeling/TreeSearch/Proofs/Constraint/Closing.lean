import Mathlib
import TreeSearch.Proofs.Constraint.Completion
import TreeSearch.Proofs.Constraint.Discipline

/-!
# Problems that close what they assign

On such a problem every assignment leaves one open variable less, so that a search comes to an end.

* `Problem.Closing`: what is asked of the problem, and `Problem.openCount`, the number of open variables at a state.
* (one assignment) `Closing.openCount_assign`: it closes one variable.
* (end) `Closing.exists_branch`: a search ends within more levels than there are open variables.  The values of one
  variable are all tried with the same variables open, since a failure below gives back the state.
* (partial assignments) `Problem.Reads`: the states are read as partial assignments; `Reads.closing`: such a problem
  closes what it assigns, and `Network.reads_problem`: the problem of a network is one, whatever its last look asks.
-/

namespace TreeSearch

variable {σ ν α : Type}

namespace Problem

/-- A state is complete iff no variable is open in it; assigning an open variable closes that one and no other, and
clearing the variable undoes that. -/
structure Closing (p : Problem σ ν α) : Prop where
  complete_iff : ∀ s, p.complete s = true ↔ p.openVars s = []
  mem_openVars_assign : ∀ s, ∀ v ∈ p.openVars s, ∀ x ∈ p.domain s v, ∀ u,
    u ∈ p.openVars (p.assign s v x) ↔ u ∈ p.openVars s ∧ u ≠ v
  clear_assign : p.ClearUndoesAssign

/-- The last look at a value has no part in this. -/
theorem Closing.vetoing [BEq α] {p : Problem σ ν α} (hp : p.Closing) (veto : List α) : (p.vetoing veto).Closing :=
  ⟨hp.complete_iff, hp.mem_openVars_assign, hp.clear_assign⟩

/-! ### Open variables -/

section

variable [DecidableEq ν]

/-- The number of open variables; one that is listed twice counts once. -/
def openCount (p : Problem σ ν α) (s : σ) : Nat := (p.openVars s).toFinset.card

theorem openCount_lt_levels (p : Problem σ ν α) (s : σ) : p.openCount s < p.levels s :=
  Nat.lt_succ_of_le (List.toFinset_card_le _)

theorem openCount_of_nodup {p : Problem σ ν α} {s : σ} (h : (p.openVars s).Nodup) :
    p.openCount s = (p.openVars s).length :=
  List.toFinset_card_of_nodup h

theorem openCount_pos_of_mem {p : Problem σ ν α} {s : σ} {v : ν} (h : v ∈ p.openVars s) : 0 < p.openCount s :=
  Finset.card_pos.mpr ⟨v, List.mem_toFinset.mpr h⟩

variable {p : Problem σ ν α}

theorem Closing.openCount_eq_zero_iff (hp : p.Closing) {s : σ} : p.openCount s = 0 ↔ p.complete s = true := by
  rw [openCount, Finset.card_eq_zero, List.toFinset_eq_empty_iff, hp.complete_iff]

/-- One variable is closed. -/
theorem Closing.openCount_assign (hp : p.Closing) {s : σ} {v : ν} (hv : v ∈ p.openVars s) {x : α}
    (hx : x ∈ p.domain s v) : p.openCount (p.assign s v x) + 1 = p.openCount s := by
  have herase : (p.openVars (p.assign s v x)).toFinset = (p.openVars s).toFinset.erase v := by
    ext u
    rw [List.mem_toFinset, hp.mem_openVars_assign s v hv x hx, Finset.mem_erase, List.mem_toFinset, and_comm]
  rw [openCount, openCount, herase]
  exact Finset.card_erase_add_one (List.mem_toFinset.mpr hv)

/-! ### Partial assignments -/

/-- The states are read as partial assignments of the variables `vars`: open are the variables without a value,
assigning one gives it that value and leaves the others alone, and clearing it undoes that. -/
structure Reads (p : Problem σ ν α) (vars : List ν) (value : σ → Assignment ν α) : Prop where
  openVars_eq : ∀ s, p.openVars s = vars.filter fun v => (value s v).isNone
  complete_iff : ∀ s, p.complete s = true ↔ ∀ v ∈ vars, (value s v).isSome
  value_assign : ∀ s, ∀ v ∈ p.openVars s, ∀ x ∈ p.domain s v, value (p.assign s v x) = (value s).set v x
  clear_assign : p.ClearUndoesAssign

variable {vars : List ν} {value : σ → Assignment ν α}

theorem Reads.mem_openVars (hp : p.Reads vars value) {s : σ} {v : ν} :
    v ∈ p.openVars s ↔ v ∈ vars ∧ value s v = none := by
  rw [hp.openVars_eq, List.mem_filter, Option.isNone_iff_eq_none]

theorem Reads.closing (hp : p.Reads vars value) : p.Closing where
  complete_iff s := by
    rw [hp.complete_iff, hp.openVars_eq, List.filter_eq_nil_iff]
    refine forall_congr' fun v => forall_congr' fun _ => ?_
    rw [Option.isNone_iff_eq_none, Option.isSome_iff_ne_none]
  mem_openVars_assign s v hv x hx u := by
    rw [hp.mem_openVars, hp.mem_openVars, hp.value_assign s v hv x hx]
    by_cases huv : u = v
    · simp [huv]
    · simp [Assignment.set_of_ne _ huv, huv]
  clear_assign := hp.clear_assign

end

/-! ### Searches end -/

variable {p : Problem σ ν α} {order : VariableOrder}

/-- Only a complete state has no next variable. -/
theorem Closing.complete_of_next (hp : p.Closing) (h : order.next p s = none) : p.complete s = true :=
  (hp.complete_iff s).mpr (VariableOrder.next_eq_none_iff.mp h)

/-- Below a value that is tried, one variable less is open. -/
theorem Closing.openCount_of_offers [DecidableEq ν] (hp : p.Closing) {v : ν} {x : α} {xs : List α}
    (ht : p.Offers order s (.values v (x :: xs))) : p.openCount (p.assign s v x) + 1 = p.openCount s :=
  hp.openCount_assign (VariableOrder.next_mem ht.1) (ht.2 x (List.mem_cons_self ..))

/-- Trying the values of a variable ends if the searches below end. -/
private theorem exists_tryValues (hp : p.ClearUndoesAssign) {v : ν} {xs : List α} {s : σ}
    (ht : p.Offers order s (.values v xs)) {descend : σ → Option (Run σ)}
    (hdescend : ∀ x ∈ p.domain s v, ∃ r, descend (p.assign s v x) = some r ∧
      (r.solved = false → r.state = p.assign s v x)) :
    ∃ r, p.tryValues v descend xs s = some r := by
  induction xs with
  | nil => exact ⟨_, rfl⟩
  | cons x xs ih =>
    obtain ⟨rest, hrest⟩ := ih ht.tail
    rw [tryValues]
    split
    · obtain ⟨r, hr, hback⟩ := hdescend x (ht.2 x (List.mem_cons_self ..))
      cases hok : r.solved with
      | true => exact ⟨r, by simp [hr, hok]⟩
      | false =>
        have hclear : p.clear r.state v = s := by rw [hback hok, ht.clear_assign hp]
        exact ⟨rest.after (r.effort + .backtrack), by simp [hr, hok, hclear, hrest]⟩
    · exact ⟨rest, hrest⟩

variable [LE α] [DecidableLE α]

/-- A run that fails ends in the state that it began with. -/
private theorem state_of_branch_failed (hp : p.ClearUndoesAssign) {levels depth : Nat} {s : σ} {r : Run σ}
    (h : p.branch order levels depth s = some r) (hr : r.solved = false) : r.state = s := by
  rw [show s = (⟨s, []⟩ : Recorded σ ν α).state from rfl, p.branch_recorded] at h
  obtain ⟨run, hrun, rfl⟩ := Option.map_eq_some_iff.mp h
  obtain ⟨cs, hcourse, -⟩ := course_of_branch hrun
  exact hcourse.state_of_failed hp trivial hr

/-- A search ends within more levels than there are open variables. -/
theorem Closing.exists_branch [DecidableEq ν] (hp : p.Closing) (order : VariableOrder) {levels : Nat} (depth : Nat)
    {s : σ} (hl : p.openCount s < levels) : ∃ r, p.branch order levels depth s = some r := by
  induction levels generalizing depth s with
  | zero => exact absurd hl (Nat.not_lt_zero _)
  | succ levels ih =>
    rw [branch]
    split
    · exact ⟨_, rfl⟩
    · split
      · exact ⟨_, rfl⟩
      · rename_i v hnext
        have hv := VariableOrder.next_mem hnext
        obtain ⟨r, hr⟩ := exists_tryValues hp.clear_assign (offers_domain hnext) fun x hx => by
          have hclosed := hp.openCount_assign hv hx
          obtain ⟨r, hr⟩ := ih (depth + 1) (s := p.assign s v x) (by omega)
          exact ⟨r, hr, state_of_branch_failed hp.clear_assign hr⟩
        exact ⟨r.after (.node depth), by simp [hr]⟩

end Problem

namespace Network

variable [DecidableEq ν] {n : Network ν α}

theorem Presents.reads {p : Problem σ ν α} {value : σ → Assignment ν α} (hp : n.Presents p value)
    (hundo : p.ClearUndoesAssign) : p.Reads n.vars value where
  openVars_eq := hp.openVars_eq
  complete_iff := hp.complete_iff
  value_assign s v hv x hx := by
    have hbase : x ∈ n.base v := ((hp.mem_domain s v hv x).mp hx).1
    exact hp.value_assign s v (hp.mem_openVars.mp hv).1 x hbase
  clear_assign := hundo

/-- The states of the problem of a network are partial assignments, whatever the last look at a value asks. -/
theorem reads_problem (n : Network ν α) [∀ u x v y, Decidable (n.compatible u x v y)]
    (admits : Assignment ν α → ν → α → Bool) : Problem.Reads { n.problem with admits } n.vars id where
  openVars_eq := n.presents_problem.openVars_eq
  complete_iff := n.presents_problem.complete_iff
  value_assign _ _ _ _ _ := rfl
  clear_assign := n.clearUndoesAssign_problem

end Network

end TreeSearch
