import TreeSearch.Constraint.Backtracking
import TreeSearch.Constraint.Network

/-!
# Backtracking on networks

On a problem that presents a network, backtracking finds a correct completion of the given assignment iff there is
one, whichever variable comes next.

* (one value) `Fills.set`, `Fills.of_set`: the completions in which an open variable has a given value are those of
  the assignment with that value, provided that the value may be used there.
* (one variable) `tryValues_settles`: if going on from every value settles the question, so does trying the values
  one by one, since a failure leaves the assignment as it was.
* (whole search) `branch_settles`: so does the search, by induction on the levels left.
-/

namespace TreeSearch

variable {σ ν α : Type}

/-! ### Completions -/

namespace Network

variable {n : Network ν α}

/-- What goes with more goes with less. -/
theorem Fits.mono {a f : Assignment ν α} (haf : ∀ v ∈ n.vars, ∀ x, a v = some x → f v = some x) {v : ν} {x : α}
    (h : n.Fits f v x) : n.Fits a v x :=
  fun u hu huv y hy => h u hu huv y (haf u hu y hy)

theorem Fills.refl {a : Assignment ν α} (h : ∀ v ∈ n.vars, (a v).isSome) : n.Fills a a where
  total := h
  keeps _ _ _ hx := hx
  filled v hv hnone := by
    have hsome := h v hv
    rw [hnone] at hsome
    cases hsome

variable [DecidableEq ν]

/-- A completion in which `v` has the value `x` completes the assignment with that value. -/
theorem Fills.set {a f : Assignment ν α} (h : n.Fills a f) {v : ν} {x : α} (hx : f v = some x) :
    n.Fills (a.set v x) f where
  total := h.total
  keeps u hu y hy := by
    by_cases huv : u = v
    · subst huv
      rw [Assignment.set_self] at hy
      rw [hx, hy]
    · rw [Assignment.set_of_ne a huv] at hy
      exact h.keeps u hu y hy
  filled u hu hnone := by
    have huv : u ≠ v := by
      rintro rfl
      rw [Assignment.set_self] at hnone
      cases hnone
    rw [Assignment.set_of_ne a huv] at hnone
    exact h.filled u hu hnone

/-- A completion of the assignment with a usable value is a completion of the assignment without it. -/
theorem Fills.of_set {a f : Assignment ν α} {v : ν} {x : α} (hv : v ∈ n.vars) (hopen : a v = none)
    (hbase : x ∈ n.base v) (haccept : n.accepts v x = true) (hfits : n.Fits a v x) (h : n.Fills (a.set v x) f) :
    n.Fills a f where
  total := h.total
  keeps u hu y hy := by
    have huv : u ≠ v := by
      rintro rfl
      rw [hopen] at hy
      cases hy
    exact h.keeps u hu y (by rw [Assignment.set_of_ne a huv, hy])
  filled u hu hnone y hy := by
    have hfv : f v = some x := h.keeps v hv x (by simp)
    by_cases huv : u = v
    · subst huv
      obtain rfl : x = y := Option.some.inj (hfv.symm.trans hy)
      refine ⟨hbase, haccept, ?_⟩
      intro w hw hwu z hz
      cases haw : a w with
      | some z' =>
        -- `w` was assigned before, and the value was chosen to go with it
        have hfw := h.keeps w hw z' (by rw [Assignment.set_of_ne a hwu, haw])
        obtain rfl : z = z' := Option.some.inj (hz.symm.trans hfw)
        exact hfits w hw hwu z haw
      | none =>
        -- `w` was assigned later, with a value that goes with this one
        have hlater := h.filled w hw (by rw [Assignment.set_of_ne a hwu, haw]) z hz
        exact n.symm w z u x hwu (hlater.2.2 u hv hwu.symm x hfv)
    · exact h.filled u hu (by rw [Assignment.set_of_ne a huv, hnone]) y hy

/-- How a run settles the question whether `a` can be completed, asked about the completions of a given kind. -/
structure Settles (n : Network ν α) (value : σ → Assignment ν α) (a : Assignment ν α) (kind : Assignment ν α → Prop)
    (r : Run σ) : Prop where
  fills : r.solved = true → n.Fills a (value r.state)
  refutes : r.solved = false → ∀ f, kind f → ¬n.Fills a f
  restores : r.solved = false → value r.state = a

/-! ### The search -/

variable {p : Problem σ ν α} {value : σ → Assignment ν α}

/-- Trying the values of an open variable settles the question for completions that use one of them. -/
theorem Presents.tryValues_settles (hp : n.Presents p value) (hc : n.Checks p) {a : Assignment ν α} {v : ν}
    (hv : v ∈ n.vars) (hopen : a v = none) {descend : σ → Option (Run σ)} {xs : List α}
    (hxs : ∀ x ∈ xs, x ∈ n.base v ∧ n.Fits a v x)
    (hdescend : ∀ x ∈ xs, ∀ t, value t = a.set v x →
      ∃ r, descend t = some r ∧ n.Settles value (a.set v x) (fun _ => True) r)
    {s : σ} (hs : value s = a) :
    ∃ r, p.tryValues v descend xs s = some r ∧ n.Settles value a (fun f => ∃ x ∈ xs, f v = some x) r := by
  -- the states differ from value to value, but all of them are read as `a`
  induction xs generalizing s with
  | nil => exact ⟨⟨false, s, 0⟩, rfl, by simp, by simp, fun _ => hs⟩
  | cons x xs ih =>
    obtain ⟨hbase, hfits⟩ := hxs x (List.mem_cons_self ..)
    have hxs' := fun y hy => hxs y (List.mem_cons_of_mem _ hy)
    have hdescend' := fun y hy => hdescend y (List.mem_cons_of_mem _ hy)
    rw [Problem.tryValues, hc s v x]
    cases haccept : n.accepts v x with
    | false =>
      obtain ⟨r, hr, hset⟩ := ih hxs' hdescend' hs
      refine ⟨r, hr, hset.fills, ?_, hset.restores⟩
      rintro hfail f ⟨y, hy, hfy⟩ hf
      rcases List.mem_cons.mp hy with rfl | hy
      · rw [(hf.filled v hv hopen y hfy).2.1] at haccept
        cases haccept
      · exact hset.refutes hfail f ⟨y, hy, hfy⟩ hf
    | true =>
      have hassign : value (p.assign s v x) = a.set v x := by rw [hp.value_assign s v hv x hbase, hs]
      obtain ⟨r, hr, hset⟩ := hdescend x (List.mem_cons_self ..) _ hassign
      cases hsolved : r.solved with
      | true =>
        refine ⟨r, by simp [hr, hsolved], ?_, by simp [hsolved], by simp [hsolved]⟩
        intro _
        exact (hset.fills hsolved).of_set hv hopen hbase haccept hfits
      | false =>
        have hclear : value (p.clear r.state v) = a := by
          rw [hp.value_clear r.state v hv, hset.restores hsolved, Assignment.unset_set hopen]
        obtain ⟨rest, hrest, hset'⟩ := ih hxs' hdescend' hclear
        refine ⟨rest.after (r.effort + .backtrack), by simp [hr, hsolved, hrest], hset'.fills, ?_, hset'.restores⟩
        rintro hfail f ⟨y, hy, hfy⟩ hf
        rcases List.mem_cons.mp hy with rfl | hy
        · exact hset.refutes hsolved f trivial (hf.set hfy)
        · exact hset'.refutes hfail f ⟨y, hy, hfy⟩ hf

theorem Presents.mem_openVars (hp : n.Presents p value) {s : σ} {v : ν} :
    v ∈ p.openVars s ↔ v ∈ n.vars ∧ value s v = none := by
  rw [hp.openVars_eq, List.mem_filter, Option.isNone_iff_eq_none]

/-- Assigning a variable closes it and no other one. -/
private theorem Presents.openVars_of_set (hp : n.Presents p value) {s t : σ} {v : ν} {x : α}
    (ht : value t = (value s).set v x) : p.openVars t = (p.openVars s).filter fun u => u ≠ v := by
  rw [hp.openVars_eq, hp.openVars_eq, List.filter_filter, ht]
  congr 1
  funext u
  by_cases hu : u = v
  · simp [hu]
  · simp [hu, Assignment.set_of_ne]

/-- Assigning the first open variable leaves the others, in their order. -/
theorem Presents.openVars_of_first (hp : n.Presents p value) {s t : σ} {v : ν} {x : α}
    (ht : value t = (value s).set v x) {vs : List ν} (hvs : p.openVars s = v :: vs) : p.openVars t = vs := by
  have hnodup : (v :: vs).Nodup := by
    rw [← hvs, hp.openVars_eq]
    exact n.nodup.filter _
  rw [hp.openVars_of_set ht, hvs, List.filter_cons_of_neg (by simp), List.filter_eq_self]
  intro u hu
  have hne : u ≠ v := fun h => (List.nodup_cons.mp hnodup).1 (h ▸ hu)
  simpa using hne

/-- Assigning an open variable leaves fewer of them. -/
private theorem Presents.length_openVars_lt (hp : n.Presents p value) {s t : σ} {v : ν} {x : α} (hv : v ∈ p.openVars s)
    (ht : value t = (value s).set v x) : (p.openVars t).length < (p.openVars s).length := by
  rw [hp.openVars_of_set ht, List.length_filter_lt_length_iff_exists]
  exact ⟨v, hv, by simp⟩

variable [LE α] [DecidableLE α]

/-- With more levels than open variables the search settles whether the assignment can be completed. -/
theorem Presents.branch_settles (hp : n.Presents p value) (hc : n.Checks p) (order : VariableOrder) {levels : Nat}
    (depth : Nat) {s : σ} (hl : (p.openVars s).length < levels) :
    ∃ r, p.branch order levels depth s = some r ∧ n.Settles value (value s) (fun _ => True) r := by
  induction levels generalizing depth s with
  | zero => exact absurd hl (Nat.not_lt_zero _)
  | succ levels ih =>
    rw [Problem.branch]
    split
    · rename_i hcomplete
      have hfill := Fills.refl ((hp.complete_iff s).mp hcomplete)
      exact ⟨_, rfl, fun _ => hfill, by simp, by simp⟩
    · rename_i hcomplete
      split
      · rename_i hnext
        exfalso
        rw [hp.complete_iff] at hcomplete
        apply hcomplete
        intro v hv
        rw [Option.isSome_iff_ne_none]
        intro hnone
        have hmem := hp.mem_openVars.mpr ⟨hv, hnone⟩
        rw [VariableOrder.next_eq_none_iff.mp hnext] at hmem
        cases hmem
      · rename_i v hnext
        have hmem := VariableOrder.next_mem hnext
        obtain ⟨hv, hopen⟩ := hp.mem_openVars.mp hmem
        have hdescend : ∀ x ∈ (p.domain s v).mergeSort, ∀ t, value t = (value s).set v x →
            ∃ r, p.branch order levels (depth + 1) t = some r ∧
              n.Settles value ((value s).set v x) (fun _ => True) r := by
          intro x _ t ht
          have hlt := hp.length_openVars_lt hmem ht
          rw [← ht]
          exact ih (depth + 1) (by omega)
        have hxs : ∀ x ∈ (p.domain s v).mergeSort, x ∈ n.base v ∧ n.Fits (value s) v x := by
          intro x hx
          exact (hp.mem_domain s v hmem x).mp (List.mem_mergeSort.mp hx)
        obtain ⟨r, hr, hset⟩ := hp.tryValues_settles hc hv hopen hxs hdescend rfl
        refine ⟨r.after (.node depth), by simp [hr], hset.fills, ?_, hset.restores⟩
        -- every completion gives `v` a value that its domain lists now
        intro hfail f _ hf
        obtain ⟨x, hx⟩ := Option.isSome_iff_exists.mp (hf.total v hv)
        obtain ⟨hbase, -, hfits⟩ := hf.filled v hv hopen x hx
        have hdom := (hp.mem_domain s v hmem x).mpr ⟨hbase, hfits.mono hf.keeps⟩
        exact hset.refutes hfail f ⟨x, List.mem_mergeSort.mpr hdom, hx⟩ hf

end Network

/-- On a network the solver succeeds iff the assignment can be completed, and then leaves such a completion. -/
theorem Solver.solve_iff_fillable [DecidableEq ν] [LE α] [DecidableLE α] {n : Network ν α} {p : Problem σ ν α}
    {value : σ → Assignment ν α} (hp : n.Presents p value) (hc : n.Checks p) (solver : Solver) {levels : Nat} {s : σ}
    (hl : p.levels s ≤ levels) :
    ∃ r, (solver.solve p levels s).1 = some r ∧ (r.solved = true ↔ ∃ f, n.Fills (value s) f) ∧
      (r.solved = true → n.Fills (value s) (value r.state)) := by
  obtain ⟨r, hr, hset⟩ := hp.branch_settles hc solver.order 0 hl
  refine ⟨r, by rw [solve, hr], ⟨fun h => ⟨_, hset.fills h⟩, ?_⟩, hset.fills⟩
  rintro ⟨f, hf⟩
  cases hsolved : r.solved with
  | true => rfl
  | false => exact absurd hf (hset.refutes hsolved f trivial)

/-- The corners of a triangle, in three colours. -/
def Network.triangle : Network (Fin 3) Nat where
  vars := [0, 1, 2]
  base _ := [0, 1, 2]
  compatible _ x _ y := x ≠ y
  nodup := by decide
  symm _ _ _ _ _ h := h.symm

instance (u : Fin 3) (x : Nat) (v : Fin 3) (y : Nat) : Decidable (Network.triangle.compatible u x v y) :=
  inferInstanceAs (Decidable (x ≠ y))

/-- Two corners of the same colour do not keep the third one from being coloured. -/
theorem Solver.solve_iff_fillable_triangle :
    let s : Assignment (Fin 3) Nat := fun v => if v = 2 then none else some 0
    ∃ r, (({ order := .natural } : Solver).solve Network.triangle.problem 2 s).1 = some r ∧
      (r.solved = true ↔ ∃ f, Network.triangle.Fills s f) ∧ (r.solved = true → Network.triangle.Fills s r.state) :=
  Solver.solve_iff_fillable (Network.presents_problem _) (Network.checks_problem _) _ (by decide)

end TreeSearch
