import TreeSearch.Proofs.Constraint.Discipline

/-!
# The choice of the next variable

* `IsFirstLeast`: an entry of a list that no other one is smaller than, the first of several.
* (choice) `next_smallestDomain_iff`: with the smallest domain first, the next variable is the first least one.
* (no dead ends) `Chosen.noDeadEnd`: so nothing is assigned where an open variable has no value left, since the one that
  is assigned has a value.
* `Problem.watched`: a search that is watched for some number of changes stops when they have been made; so it may be
  watched even if it never ends.  `exists_branch_watched` says what is seen: the choices of the search, and all of it
  if it ends earlier.
* (every search) `next_first_least`.
-/

namespace TreeSearch

variable {σ ν α : Type}

/-! ### The first least entry -/

/-- Everything before the entry is larger, and nothing after it is smaller. -/
def IsFirstLeast (size : ν → Nat) (vs : List ν) (v : ν) : Prop :=
  ∃ before after, vs = before ++ v :: after ∧ (∀ u ∈ before, size v < size u) ∧ ∀ u ∈ after, size v ≤ size u

section

variable {size : ν → Nat} {vs : List ν} {u v : ν}

private theorem IsFirstLeast.le (h : IsFirstLeast size vs v) (hu : u ∈ vs) : size v ≤ size u := by
  obtain ⟨before, after, rfl, hbefore, hafter⟩ := h
  rcases List.mem_append.mp hu with hu | hu
  · exact Nat.le_of_lt (hbefore u hu)
  · rcases List.mem_cons.mp hu with rfl | hu
    · exact Nat.le_refl _
    · exact hafter u hu

/-- Of two first least entries neither comes before the other. -/
theorem IsFirstLeast.unique (h : IsFirstLeast size vs u) (k : IsFirstLeast size vs v) : u = v := by
  have hsize : size u = size v := by
    have hu : u ∈ vs := by obtain ⟨before, after, rfl, -⟩ := h; simp
    have hv : v ∈ vs := by obtain ⟨before, after, rfl, -⟩ := k; simp
    exact Nat.le_antisymm (h.le hv) (k.le hu)
  obtain ⟨before, after, rfl, hbefore, -⟩ := h
  obtain ⟨before', after', heq, hbefore', -⟩ := k
  rcases List.append_eq_append_iff.mp heq with ⟨rest, rfl, hrest⟩ | ⟨rest, rfl, hrest⟩
  · rcases List.cons_eq_append_iff.mp hrest with ⟨rfl, hcons⟩ | ⟨rest, rfl, -⟩
    · exact (List.cons.inj hcons).1.symm
    · have := hbefore' u (by simp)
      omega
  · rcases List.cons_eq_append_iff.mp hrest with ⟨rfl, hcons⟩ | ⟨rest, rfl, -⟩
    · exact (List.cons.inj hcons).1
    · have := hbefore v (by simp)
      omega

private theorem IsFirstLeast.cons_of_lt (h : IsFirstLeast size vs v) (hu : size v < size u) :
    IsFirstLeast size (u :: vs) v := by
  obtain ⟨before, after, rfl, hbefore, hafter⟩ := h
  exact ⟨u :: before, after, rfl, List.forall_mem_cons.mpr ⟨hu, hbefore⟩, hafter⟩

/-- An entry that is not smaller than the first one may be put behind it. -/
private theorem IsFirstLeast.insert_of_le {w : ν} (h : IsFirstLeast size (u :: vs) v) (hw : size u ≤ size w) :
    IsFirstLeast size (u :: w :: vs) v := by
  obtain ⟨before, after, heq, hbefore, hafter⟩ := h
  rcases List.cons_eq_append_iff.mp heq with ⟨rfl, hcons⟩ | ⟨before, rfl, rfl⟩
  · obtain ⟨rfl, rfl⟩ := List.cons.inj hcons
    exact ⟨[], w :: after, rfl, List.forall_mem_nil _, List.forall_mem_cons.mpr ⟨hw, hafter⟩⟩
  · obtain ⟨hu, hbefore⟩ := List.forall_mem_cons.mp hbefore
    refine ⟨u :: w :: before, after, rfl, ?_, hafter⟩
    exact List.forall_mem_cons.mpr ⟨hu, List.forall_mem_cons.mpr ⟨Nat.lt_of_lt_of_le hu hw, hbefore⟩⟩

/-- Going through a list from its first entry ends with the first least one. -/
private theorem isFirstLeast_leastFrom (size : ν → Nat) (v : ν) (vs : List ν) :
    IsFirstLeast size (v :: vs) (leastFrom size (size v) v vs) := by
  induction vs generalizing v with
  | nil => exact ⟨[], [], rfl, List.forall_mem_nil _, List.forall_mem_nil _⟩
  | cons w vs ih =>
    unfold leastFrom
    split
    · -- what is found from the second entry on is as small as that one
      rename_i hsmaller
      have hle := (ih w).le (List.mem_cons_self ..)
      exact (ih w).cons_of_lt (Nat.lt_of_le_of_lt hle hsmaller)
    · rename_i hlarger
      exact (ih v).insert_of_le (Nat.le_of_not_lt hlarger)

end

/-! ### The next variable -/

namespace VariableOrder

variable {p : Problem σ ν α} {s : σ} {v : ν}

theorem next_smallestDomain_iff :
    smallestDomain.next p s = some v ↔ IsFirstLeast (fun u => (p.domain s u).length) (p.openVars s) v := by
  unfold next
  cases p.openVars s with
  | nil => simp [IsFirstLeast]
  | cons w vs =>
    have hleast := isFirstLeast_leastFrom (fun u => (p.domain s u).length) w vs
    constructor
    · intro h
      rwa [← Option.some.inj h]
    · intro h
      exact congrArg some (hleast.unique h)

/-- Where the variable of the smallest domain has a value, every open variable has one. -/
private theorem domain_ne_nil_of_next (h : smallestDomain.next p s = some v) {x : α} (hx : x ∈ p.domain s v) :
    ∀ u ∈ p.openVars s, p.domain s u ≠ [] := by
  intro u hu hnil
  have hle := (next_smallestDomain_iff.mp h).le hu
  have hpos := List.length_pos_of_mem hx
  rw [hnil] at hle
  exact absurd (Nat.lt_of_lt_of_le hpos hle) (Nat.lt_irrefl 0)

end VariableOrder

namespace Problem

/-- At every state in which a variable is assigned, every open variable has a value left. -/
def NoDeadEnd (p : Problem σ ν α) (s : σ) (cs : List (Change ν α)) : Prop :=
  ∀ before v x after, cs = before ++ .assigned v x :: after →
    ∀ u ∈ p.openVars (p.replay s before), p.domain (p.replay s before) u ≠ []

theorem Chosen.noDeadEnd {p : Problem σ ν α} {s : σ} {cs : List (Change ν α)} (h : p.Chosen .smallestDomain s cs) :
    p.NoDeadEnd s cs := by
  intro before v x after heq
  obtain ⟨hnext, hx, -⟩ := h before _ after heq
  exact VariableOrder.domain_ne_nil_of_next hnext hx

/-! ### Searches that are watched -/

/-- The problem with its record, taken for complete when `k` changes have been made. -/
def watched (p : Problem σ ν α) (k : Nat) : Problem (Recorded σ ν α) ν α :=
  p.recorded.stoppingWhen fun t => k ≤ t.latest.length

/-- Changes that a search may make, one after the other, lead from `t` to `u` and are recorded there. -/
def Leads (p : Problem σ ν α) (order : VariableOrder) (t u : Recorded σ ν α) : Prop :=
  ∃ cs, u.latest = cs.reverse ++ t.latest ∧ p.Chosen order t.state cs ∧ p.replay t.state cs = u.state

variable {p : Problem σ ν α} {order : VariableOrder} {k : Nat} {t u w : Recorded σ ν α}

theorem Leads.refl (t : Recorded σ ν α) : p.Leads order t t := ⟨[], rfl, .nil, rfl⟩

theorem Leads.trans (h : p.Leads order t u) (h' : p.Leads order u w) : p.Leads order t w := by
  obtain ⟨cs, hlatest, hchosen, hreplay⟩ := h
  obtain ⟨cs', hlatest', hchosen', hreplay'⟩ := h'
  rw [← hreplay] at hchosen' hreplay'
  refine ⟨cs ++ cs', ?_, hchosen.append hchosen', ?_⟩
  · rw [hlatest', hlatest, List.reverse_append, List.append_assoc]
  · rw [replay_append, hreplay']

private theorem Leads.assign {v : ν} {x : α} (h : p.Allows order t.state (.assigned v x)) :
    p.Leads order t (p.recorded.assign t v x) :=
  ⟨[.assigned v x], rfl, .cons h .nil, rfl⟩

private theorem Leads.clear (t : Recorded σ ν α) (v : ν) : p.Leads order t (p.recorded.clear t v) :=
  ⟨[.cleared v], rfl, .cons trivial .nil, rfl⟩

private theorem Leads.length_le (h : p.Leads order t u) : t.latest.length ≤ u.latest.length := by
  obtain ⟨cs, hlatest, -⟩ := h
  rw [hlatest, List.length_append]
  exact Nat.le_add_left _ _

/-- The run `r` from `t` is a part of a search: it makes choices of the search, a failure leads back to the first
state, and unless `k` changes are recorded in the end, `r` is the run `whole` that nobody watches. -/
structure Glimpse (p : Problem σ ν α) (order : VariableOrder) (k : Nat) (t : Recorded σ ν α)
    (whole : Option (Run (Recorded σ ν α))) (r : Run (Recorded σ ν α)) : Prop where
  leads : p.Leads order t r.state
  state_of_failed : r.solved = false → r.state.state = t.state
  eq_whole : r.state.latest.length < k → whole = some r

/-- The values of a variable are tried as nobody watched, if the searches below are. -/
private theorem exists_tryValues_watched (hp : p.ClearUndoesAssign) {v : ν} {xs : List α}
    {descend whole : Recorded σ ν α → Option (Run (Recorded σ ν α))} {t : Recorded σ ν α}
    (ht : p.Offers order t.state (.values v xs))
    (hdescend : ∀ u, t.latest.length < u.latest.length →
      ∃ r, descend u = some r ∧ p.Glimpse order k u (whole u) r) :
    ∃ r, (p.watched k).tryValues v descend xs t = some r ∧
      p.Glimpse order k t (p.recorded.tryValues v whole xs t) r := by
  induction xs generalizing t with
  | nil => exact ⟨_, rfl, .refl t, fun _ => rfl, fun _ => rfl⟩
  | cons x xs ih =>
    rw [tryValues, tryValues]
    change ∃ r, (if p.admits t.state v x = true then _ else _) = some r ∧
      p.Glimpse order k t (if p.admits t.state v x = true then _ else _) r
    split
    · rename_i hx
      have hallowed : p.Allows order t.state (.assigned v x) := ⟨ht.1, ht.2 x (List.mem_cons_self ..), hx⟩
      obtain ⟨r, hr, hglimpse⟩ := hdescend (p.recorded.assign t v x) (Nat.lt_succ_self _)
      have hleads := (Leads.assign hallowed).trans hglimpse.leads
      cases hok : r.solved with
      | true =>
        refine ⟨r, ?_, hleads, ?_, ?_⟩
        · show (descend (p.recorded.assign t v x)).bind _ = _
          simp [hr, hok]
        · simp [hok]
        · intro hshort
          simp [hglimpse.eq_whole hshort, hok]
      | false =>
        -- the other values are tried in the first state again
        have hback : (p.recorded.clear r.state v).state = t.state := by
          show p.clear r.state.state v = t.state
          rw [hglimpse.state_of_failed hok]
          exact ht.clear_assign hp
        have hcleared := hleads.trans (Leads.clear r.state v)
        have hlength := hcleared.length_le
        obtain ⟨rest, hrest, hglimpse'⟩ := ih (t := p.recorded.clear r.state v) (hback ▸ ht.tail) fun u hu =>
          hdescend u (Nat.lt_of_le_of_lt hlength hu)
        have hrest : (p.watched k).tryValues v descend xs ((p.watched k).clear r.state v) = some rest := hrest
        refine ⟨rest.after (r.effort + .backtrack), ?_, hcleared.trans hglimpse'.leads, ?_, ?_⟩
        · show (descend (p.recorded.assign t v x)).bind _ = _
          simp [hr, hok, hrest]
        · exact fun hfail => (hglimpse'.state_of_failed hfail).trans hback
        · intro hshort
          have hlater : r.state.latest.length < k :=
            Nat.lt_trans (Nat.lt_of_succ_le hglimpse'.leads.length_le) hshort
          simp [hglimpse.eq_whole hlater, hglimpse'.eq_whole hshort, hok]
    · exact ih ht.tail hdescend

variable [LE α] [DecidableLE α]

/-- A search that is watched for `k` changes ends within the levels that `k` assignments need. -/
theorem exists_branch_watched (hp : p.ClearUndoesAssign) (order : VariableOrder) {levels : Nat} (depth : Nat)
    (t : Recorded σ ν α) (hpos : 0 < levels) (hl : k < levels + t.latest.length) :
    ∃ r, (p.watched k).branch order levels depth t = some r ∧
      p.Glimpse order k t (p.recorded.branch order levels depth t) r := by
  induction levels generalizing depth t with
  | zero => exact absurd hpos (Nat.lt_irrefl 0)
  | succ levels ih =>
    have hnext : order.next (p.watched k) t = order.next p t.state := rfl
    have hnext' : order.next p.recorded t = order.next p t.state := rfl
    rw [branch, branch, hnext, hnext']
    change ∃ r, (if (p.complete t.state || decide (k ≤ t.latest.length)) = true then _ else _) = some r ∧
      p.Glimpse order k t (if p.complete t.state = true then _ else _) r
    cases hs : p.complete t.state with
    | true => exact ⟨_, rfl, .refl t, fun _ => rfl, fun _ => rfl⟩
    | false =>
      by_cases hk : k ≤ t.latest.length
      · -- the search is not watched any further
        refine ⟨⟨true, t, 0⟩, by simp [hk], .refl t, fun _ => rfl, fun hshort => ?_⟩
        exact absurd hk (Nat.not_le_of_lt hshort)
      · simp only [hk, decide_false, Bool.or_false, Bool.false_eq_true, if_false]
        cases hv : order.next p t.state with
        | none => exact ⟨_, rfl, .refl t, fun _ => rfl, fun _ => rfl⟩
        | some v =>
          obtain ⟨r, hr, hglimpse⟩ := exists_tryValues_watched (k := k) hp (offers_domain hv) fun u hu =>
            ih (depth + 1) u (by omega) (by omega)
          refine ⟨r.after (.node depth), ?_, hglimpse.leads, hglimpse.state_of_failed, fun hshort => ?_⟩
          · show ((p.watched k).tryValues v _ (p.domain t.state v).mergeSort t).bind _ = _
            rw [hr]
            rfl
          · show (p.recorded.tryValues v _ (p.domain t.state v).mergeSort t).bind _ = _
            rw [hglimpse.eq_whole hshort]
            rfl

end Problem

/-- There is no next variable iff none is open; the natural order takes the first open one, and the other order the
first of those with the smallest domain.  So in the latter order, where clearing undoes assigning, nothing is ever
assigned while an open variable has no value left.  This is said of every run that ends; and, whether or not a search
ends, of what is seen of it while `k` changes are made. -/
theorem next_first_least [LE α] [DecidableLE α] (p : Problem σ ν α) :
    (∀ (order : VariableOrder) s, order.next p s = none ↔ p.openVars s = []) ∧
    (∀ s, VariableOrder.natural.next p s = (p.openVars s).head?) ∧
    (∀ s v, VariableOrder.smallestDomain.next p s = some v ↔
      IsFirstLeast (fun u => (p.domain s u).length) (p.openVars s) v) ∧
    (p.ClearUndoesAssign → ∀ (solver : Solver) s, solver.order = .smallestDomain →
      (∀ levels r, (solver.solve p levels s).1 = some r → ∃ run,
        (solver.solve p.recorded levels ⟨s, []⟩).1 = some run ∧ run.map Recorded.state = r ∧
        p.NoDeadEnd s run.state.changes) ∧
      ∀ k, ∃ run, (solver.solve (p.watched k) (k + 1) ⟨s, []⟩).1 = some run ∧
        (k ≤ run.state.changes.length ∨ (solver.solve p.recorded (k + 1) ⟨s, []⟩).1 = some run) ∧
        p.NoDeadEnd s run.state.changes) := by
  refine ⟨fun _ _ => VariableOrder.next_eq_none_iff, VariableOrder.next_natural p,
    fun _ _ => VariableOrder.next_smallestDomain_iff, fun hp solver s horder => ⟨fun levels r hr => ?_, fun k => ?_⟩⟩
  · obtain ⟨run, hrun, hmap, hcourse⟩ := solver.exists_course hr
    have hchosen := hcourse.chosen hp trivial
    rw [horder] at hchosen
    exact ⟨run, hrun, hmap, hchosen.noDeadEnd⟩
  · obtain ⟨run, hrun, hglimpse⟩ := Problem.exists_branch_watched hp solver.order 0 ⟨s, []⟩ (Nat.succ_pos k)
      (Nat.lt_succ_self k)
    obtain ⟨cs, hlatest, hchosen, -⟩ := hglimpse.leads
    have hchanges : run.state.changes = cs := by simp [Recorded.changes, hlatest]
    rw [horder] at hchosen
    refine ⟨run, by rw [Solver.solve, hrun], ?_, hchanges ▸ hchosen.noDeadEnd⟩
    by_cases hk : k ≤ run.state.changes.length
    · exact Or.inl hk
    · have hshort : run.state.latest.length < k := by simpa [Recorded.changes] using hk
      exact Or.inr (by rw [Solver.solve, hglimpse.eq_whole hshort])

/-- The end of the edge without a choice comes first, and leaves the other end one colour. -/
theorem next_first_least_edge :
    let p := Network.edge.problem
    let s : Assignment (Fin 2) Nat := fun _ => none
    p.ClearUndoesAssign ∧ IsFirstLeast (fun u => (p.domain s u).length) (p.openVars s) 1 ∧
      (∃ run, (({} : Solver).solve p.recorded 3 ⟨s, []⟩).1 = some run ∧
        run.state.changes = [.assigned 1 0, .assigned 0 1] ∧ p.NoDeadEnd s run.state.changes) ∧
      ∃ run, (({} : Solver).solve (p.watched 1) 2 ⟨s, []⟩).1 = some run ∧ run.state.changes = [.assigned 1 0] ∧
        p.NoDeadEnd s run.state.changes := by
  intro p s
  have hp : p.ClearUndoesAssign := Network.clearUndoesAssign_problem _
  have hends : (({} : Solver).solve p 3 s).1.isSome = true := by cbv
  have hnext : VariableOrder.smallestDomain.next p s = some 1 := by cbv
  have hchanges : (({} : Solver).solve p.recorded 3 ⟨s, []⟩).1.map (fun run => run.state.changes) =
      some [.assigned 1 0, .assigned 0 1] := by cbv
  have hseen : (({} : Solver).solve (p.watched 1) 2 ⟨s, []⟩).1.map (fun run => run.state.changes) =
      some [.assigned 1 0] := by cbv
  obtain ⟨-, -, hleast, hsolve⟩ := next_first_least p
  obtain ⟨hends', hwatched⟩ := hsolve hp {} s rfl
  obtain ⟨r, hr⟩ := Option.isSome_iff_exists.mp hends
  obtain ⟨run, hrun, -, hrunSafe⟩ := hends' 3 r hr
  obtain ⟨glimpse, hglimpse, -, hglimpseSafe⟩ := hwatched 1
  rw [hrun] at hchanges
  rw [hglimpse] at hseen
  exact ⟨hp, (hleast s 1).mp hnext, ⟨run, hrun, Option.some.inj hchanges, hrunSafe⟩, glimpse, hglimpse,
    Option.some.inj hseen, hglimpseSafe⟩

end TreeSearch
