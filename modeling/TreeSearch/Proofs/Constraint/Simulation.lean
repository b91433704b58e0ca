import TreeSearch.Constraint.Backtracking
import TreeSearch.Constraint.Recorded

/-!
# Problems that are searched alike

Two problems whose states correspond to each other are searched alike if corresponding states give a search the same
answers and stay in correspondence when a variable is assigned or cleared in both.

* (one relation) `Problem.Simulates`: what is asked of the correspondence, which need not hold of all states.
* (runs) `Simulates.branch`: searches of corresponding states end with the same verdict, with the same effort and in
  corresponding states, or both reach the limit.
* (record) `branch_recorded`: recording the changes does not change the run.
* (stop) `Keeps.branch_stoppingWhen`: a problem that also stops where a property of states fails is searched as if it
  did not stop there, if assigning and clearing keep the property.
-/

namespace TreeSearch

variable {σ τ ν α : Type}

/-- The run with its state seen through `f`. -/
def Run.map (f : σ → τ) (r : Run σ) : Run τ := ⟨r.solved, f r.state, r.effort⟩

@[simp] theorem Run.solved_map (f : σ → τ) (r : Run σ) : (r.map f).solved = r.solved := rfl
@[simp] theorem Run.state_map (f : σ → τ) (r : Run σ) : (r.map f).state = f r.state := rfl
@[simp] theorem Run.effort_map (f : σ → τ) (r : Run σ) : (r.map f).effort = r.effort := rfl
@[simp] theorem Run.map_id : Run.map (id : σ → σ) = id := rfl

/-- Two runs with the same verdict and the same effort that end in related states. -/
structure Run.Alike (R : σ → τ → Prop) (r : Run σ) (r' : Run τ) : Prop where
  solved_eq : r.solved = r'.solved
  state : R r.state r'.state
  effort_eq : r.effort = r'.effort

theorem Run.Alike.after {R : σ → τ → Prop} {r : Run σ} {r' : Run τ} (h : r.Alike R r') (e : Effort) :
    (r.after e).Alike R (r'.after e) :=
  ⟨h.solved_eq, h.state, congrArg (e + ·) h.effort_eq⟩

/-- Where related states are the same but for `f`, so are runs that are alike. -/
theorem Run.eq_map_of_alike {R : σ → τ → Prop} {f : τ → σ} (hR : ∀ s t, R s t → s = f t) {a : Option (Run σ)}
    {b : Option (Run τ)} (h : Option.Rel (Run.Alike R) a b) : a = b.map (Run.map f) := by
  cases h with
  | none => rfl
  | @some r r' h =>
    obtain ⟨hsolved, hstate, heffort⟩ := h
    rw [Option.map_some, map, ← hsolved, ← hR _ _ hstate, ← heffort]

/-- Going on alike after answers that are alike. -/
private theorem rel_bind {A B C D : Type} {R : A → B → Prop} {S : C → D → Prop} {a : Option A} {b : Option B}
    {f : A → Option C} {g : B → Option D} (h : Option.Rel R a b) (hfg : ∀ x y, R x y → Option.Rel S (f x) (g y)) :
    Option.Rel S (a.bind f) (b.bind g) := by
  cases h with
  | none => exact .none
  | some h => exact hfg _ _ h

namespace Problem

variable [LE α] [DecidableLE α]

/-- States related by `R` give a search the same answers, and stay related when a variable is cleared, or takes a
value from the domain that it had at some related states. -/
structure Simulates (order : VariableOrder) (p : Problem σ ν α) (q : Problem τ ν α) (R : σ → τ → Prop) : Prop where
  complete_eq : ∀ {s t}, R s t → p.complete s = q.complete t
  next_eq : ∀ {s t}, R s t → order.next p s = order.next q t
  values_eq : ∀ {s t}, R s t → ∀ v, (p.domain s v).mergeSort = (q.domain t v).mergeSort
  admits_eq : ∀ {s t}, R s t → ∀ v x, p.admits s v x = q.admits t v x
  assign : ∀ {s t}, R s t → ∀ v, ∀ x ∈ p.domain s v, ∀ {s' t'}, R s' t' → R (p.assign s' v x) (q.assign t' v x)
  clear : ∀ {s t}, R s t → ∀ v, R (p.clear s v) (q.clear t v)

variable {order : VariableOrder} {p : Problem σ ν α} {q : Problem τ ν α} {R : σ → τ → Prop}

private theorem Simulates.tryValues (h : p.Simulates order q R) {v : ν} {descend : σ → Option (Run σ)}
    {descend' : τ → Option (Run τ)}
    (hdescend : ∀ {s t}, R s t → Option.Rel (Run.Alike R) (descend s) (descend' t)) {xs : List α}
    (hxs : ∀ x ∈ xs, ∀ s t, R s t → R (p.assign s v x) (q.assign t v x)) {s : σ} {t : τ} (hst : R s t) :
    Option.Rel (Run.Alike R) (p.tryValues v descend xs s) (q.tryValues v descend' xs t) := by
  induction xs generalizing s t with
  | nil => exact .some ⟨rfl, hst, rfl⟩
  | cons x xs ih =>
    have htail : ∀ y ∈ xs, ∀ s t, R s t → R (p.assign s v y) (q.assign t v y) :=
      fun y hy => hxs y (List.mem_cons_of_mem _ hy)
    rw [Problem.tryValues, Problem.tryValues, h.admits_eq hst]
    split
    · refine rel_bind (hdescend (hxs x (List.mem_cons_self ..) s t hst)) fun r r' hr => ?_
      rw [hr.solved_eq]
      split
      · exact .some hr
      · refine rel_bind (ih htail (h.clear hr.state v)) fun rest rest' hrest => ?_
        rw [hr.effort_eq]
        exact .some (hrest.after _)
    · exact ih htail hst

/-- Related states are searched alike. -/
theorem Simulates.branch (h : p.Simulates order q R) (levels depth : Nat) {s : σ} {t : τ} (hst : R s t) :
    Option.Rel (Run.Alike R) (p.branch order levels depth s) (q.branch order levels depth t) := by
  induction levels generalizing depth s t with
  | zero => exact .none
  | succ levels ih =>
    rw [Problem.branch, Problem.branch, h.complete_eq hst, h.next_eq hst]
    split
    · exact .some ⟨rfl, hst, rfl⟩
    · split
      · exact .some ⟨rfl, hst, rfl⟩
      · rename_i v _
        rw [← h.values_eq hst v]
        have hxs : ∀ x ∈ (p.domain s v).mergeSort, ∀ s t, R s t → R (p.assign s v x) (q.assign t v x) :=
          fun x hx _ _ => h.assign hst v x (List.mem_mergeSort.mp hx)
        exact rel_bind (h.tryValues (fun hst => ih (depth + 1) hst) hxs hst) fun r r' hr => .some (hr.after _)

/-! ### The recorded problem -/

private theorem simulates_recorded (p : Problem σ ν α) (order : VariableOrder) :
    p.Simulates order p.recorded fun s t => s = t.state where
  complete_eq := by rintro _ t rfl; rfl
  next_eq := by rintro _ t rfl; rfl
  values_eq := by rintro _ t rfl v; rfl
  admits_eq := by rintro _ t rfl v x; rfl
  assign := by rintro _ _ - v x - _ t rfl; rfl
  clear := by rintro _ t rfl v; rfl

/-- Recording the changes does not change the run. -/
theorem branch_recorded (p : Problem σ ν α) (order : VariableOrder) (levels depth : Nat) (t : Recorded σ ν α) :
    p.branch order levels depth t.state =
      (p.recorded.branch order levels depth t).map (Run.map Recorded.state) := by
  exact Run.eq_map_of_alike (fun _ _ h => h) ((p.simulates_recorded order).branch levels depth rfl)

/-! ### Problems that stop -/

/-- Clearing a variable and assigning a value of a domain keep `I`, at whatever state this is done. -/
structure Keeps (p : Problem σ ν α) (I : σ → Prop) : Prop where
  assign : ∀ s v, ∀ x ∈ p.domain s v, ∀ t, I t → I (p.assign t v x)
  clear : ∀ v t, I t → I (p.clear t v)

private theorem Keeps.simulates_stoppingWhen {I : σ → Prop} (hp : p.Keeps I) {stop : σ → Bool}
    (hstop : ∀ s, I s → stop s = false) (order : VariableOrder) :
    p.Simulates order (p.stoppingWhen stop) fun s t => s = t ∧ I t where
  complete_eq := by
    rintro s _ ⟨rfl, hs⟩
    simp [stoppingWhen, hstop s hs]
  next_eq := by rintro s _ ⟨rfl, -⟩; rfl
  values_eq := by rintro s _ ⟨rfl, -⟩ v; rfl
  admits_eq := by rintro s _ ⟨rfl, -⟩ v x; rfl
  assign := by
    rintro s _ ⟨rfl, -⟩ v x hx t _ ⟨rfl, ht⟩
    exact ⟨rfl, hp.assign s v x hx t ht⟩
  clear := by
    rintro s _ ⟨rfl, hs⟩ v
    exact ⟨rfl, hp.clear v s hs⟩

/-- Where what a search keeps rules out that it stops, it does not. -/
theorem Keeps.branch_stoppingWhen {I : σ → Prop} (hp : p.Keeps I) {stop : σ → Bool}
    (hstop : ∀ s, I s → stop s = false) (order : VariableOrder) (levels depth : Nat) {s : σ} (hs : I s) :
    (p.stoppingWhen stop).branch order levels depth s = p.branch order levels depth s := by
  have hsim := (hp.simulates_stoppingWhen hstop order).branch levels depth (s := s) (t := s) ⟨rfl, hs⟩
  have heq := Run.eq_map_of_alike (f := id) (fun _ _ h => h.1) hsim
  simpa using heq.symm

end Problem

end TreeSearch
