import Mathlib.Data.List.Sort
import TreeSearch.Proofs.Constraint.Completion

/-!
# The first of all solutions

In the natural order of the variables, with values tried in ascending order, backtracking comes across the solutions in
the lexicographic order of the values that it assigns, so the one that it ends with is the first.

* `Assignment.Precedes vs f g`: read along the variables `vs`, the values of `f` are those of `g`, or come before them.
* (one value) `Precedes.cons_of_eq`, `Precedes.cons_of_lt`: the first variable decides, unless both give it the same
  value.
* (one variable) `Presents.tryValues_precedes`: the values before the one that is kept belong to no completion, and
  those after it to later ones.
* (whole search) `Presents.branch_precedes`: by induction on the levels left, since what is open below are the variables
  after the one assigned (`Presents.openVars_of_first`).
-/

namespace TreeSearch

variable {σ ν α : Type}

namespace Assignment

variable [LT α]

/-- Along the variables `vs` the values of `f` equal those of `g` or come before them in lexicographic order. -/
def Precedes (vs : List ν) (f g : Assignment ν α) : Prop :=
  vs.filterMap f = vs.filterMap g ∨ List.Lex (· < ·) (vs.filterMap f) (vs.filterMap g)

variable {vs : List ν} {f g : Assignment ν α} {v : ν} {x y : α}

private theorem Precedes.nil (f g : Assignment ν α) : Precedes [] f g := Or.inl rfl

theorem Precedes.cons_of_eq (hf : f v = some x) (hg : g v = some x) (h : Precedes vs f g) : Precedes (v :: vs) f g := by
  unfold Precedes
  rw [List.filterMap_cons_some hf, List.filterMap_cons_some hg]
  exact h.imp (congrArg (x :: ·)) .cons

theorem Precedes.cons_of_lt (hf : f v = some x) (hg : g v = some y) (h : x < y) : Precedes (v :: vs) f g := by
  unfold Precedes
  rw [List.filterMap_cons_some hf, List.filterMap_cons_some hg]
  exact Or.inr (.rel h)

end Assignment

namespace VariableOrder

/-- In the natural order the first open variable is next. -/
private theorem next_natural_eq_some {p : Problem σ ν α} {s : σ} {v : ν}
    (h : VariableOrder.natural.next p s = some v) : ∃ vs, p.openVars s = v :: vs := by
  rw [next_natural] at h
  exact List.head?_eq_some_iff.mp h

end VariableOrder

namespace Network

open Assignment

variable [DecidableEq ν] [LinearOrder α] {n : Network ν α} {p : Problem σ ν α} {value : σ → Assignment ν α}

/-- A value that is kept comes with the first of the completions that use a value of the list. -/
theorem Presents.tryValues_precedes (hp : n.Presents p value) (hc : n.Checks p) {a : Assignment ν α} {v : ν}
    (hv : v ∈ n.vars) (hopen : a v = none) {vs : List ν} {descend : σ → Option (Run σ)} {xs : List α}
    (hsorted : xs.Pairwise (· ≤ ·)) (hxs : ∀ x ∈ xs, x ∈ n.base v)
    (hdescend : ∀ x ∈ xs, ∀ t, value t = a.set v x → ∃ r, descend t = some r ∧
      n.Settles value (a.set v x) (fun _ => True) r ∧
      (r.solved = true → ∀ g, n.Fills (a.set v x) g → Precedes vs (value r.state) g))
    {s : σ} (hs : value s = a) {r : Run σ} (hr : p.tryValues v descend xs s = some r) (hok : r.solved = true)
    {g : Assignment ν α} (hg : n.Fills a g) (hgv : ∃ x ∈ xs, g v = some x) :
    Precedes (v :: vs) (value r.state) g := by
  induction xs generalizing s r with
  | nil =>
    obtain ⟨x, hx, -⟩ := hgv
    cases hx
  | cons x xs ih =>
    obtain ⟨y, hy, hgy⟩ := hgv
    have hxs' := fun z hz => hxs z (List.mem_cons_of_mem _ hz)
    have hdescend' := fun z hz => hdescend z (List.mem_cons_of_mem _ hz)
    have htail := fun {s} (hs : value s = a) {r} (hr : p.tryValues v descend xs s = some r) (hok : r.solved = true)
      (hyx : y ≠ x) => ih hsorted.of_cons hxs' hdescend' hs hr hok ⟨y, (List.mem_cons.mp hy).resolve_left hyx, hgy⟩
    rw [Problem.tryValues, hc s v x] at hr
    split at hr
    · have hassign : value (p.assign s v x) = a.set v x := by
        rw [hp.value_assign s v hv x (hxs x (List.mem_cons_self ..)), hs]
      obtain ⟨r₁, hr₁, hset, hfirst⟩ := hdescend x (List.mem_cons_self ..) _ hassign
      rw [hr₁] at hr
      cases hsolved : r₁.solved with
      | true =>
        obtain rfl : r₁ = r := by simpa [hsolved] using hr
        have hrv : value r₁.state v = some x := (hset.fills hsolved).keeps v hv x (by simp)
        rcases List.mem_cons.mp hy with rfl | hy
        · exact .cons_of_eq hrv hgy (hfirst hsolved g (hg.set hgy))
        · have hle : x ≤ y := (List.pairwise_cons.mp hsorted).1 y hy
          rcases lt_or_eq_of_le hle with hlt | rfl
          · exact .cons_of_lt hrv hgy hlt
          · exact .cons_of_eq hrv hgy (hfirst hsolved g (hg.set hgy))
      | false =>
        -- no completion uses `x`, and the variable is open again
        have hclear : value (p.clear r₁.state v) = a := by
          rw [hp.value_clear r₁.state v hv, hset.restores hsolved, Assignment.unset_set hopen]
        obtain ⟨rest, hrest, rfl⟩ : ∃ rest, p.tryValues v descend xs (p.clear r₁.state v) = some rest ∧
            rest.after (r₁.effort + .backtrack) = r := by
          simpa [hsolved, Option.bind_eq_some_iff] using hr
        refine htail (r := rest) hclear hrest hok ?_
        rintro rfl
        exact hset.refutes hsolved g trivial (hg.set hgy)
    · rename_i hrefused
      refine htail hs hr hok ?_
      rintro rfl
      exact hrefused (hg.filled v hv hopen y hgy).2.1

/-- With more levels than open variables, a search in the natural order that succeeds ends with the first completion. -/
theorem Presents.branch_precedes (hp : n.Presents p value) (hc : n.Checks p) {levels depth : Nat} {s : σ}
    (hl : (p.openVars s).length < levels) {r : Run σ} (hr : p.branch .natural levels depth s = some r)
    (hok : r.solved = true) {g : Assignment ν α} (hg : n.Fills (value s) g) :
    Precedes (p.openVars s) (value r.state) g := by
  induction levels generalizing depth s r g with
  | zero => exact absurd hl (Nat.not_lt_zero _)
  | succ levels ih =>
    rw [Problem.branch] at hr
    split at hr
    · rename_i hcomplete
      have hnone : p.openVars s = [] := by
        rw [hp.openVars_eq, List.filter_eq_nil_iff]
        intro v hv
        have hsome := (hp.complete_iff s).mp hcomplete v hv
        rwa [Option.isNone_iff_eq_none, ← ne_eq, ← Option.isSome_iff_ne_none]
      rw [hnone]
      exact .nil _ _
    · split at hr
      · obtain rfl := Option.some.inj hr
        cases hok
      · rename_i v hnext
        obtain ⟨vs, hvs⟩ := VariableOrder.next_natural_eq_some hnext
        have hmem : v ∈ p.openVars s := VariableOrder.next_mem hnext
        obtain ⟨hv, hopen⟩ := hp.mem_openVars.mp hmem
        obtain ⟨r₁, hr₁, rfl⟩ : ∃ r₁, p.tryValues v (p.branch .natural levels (depth + 1)) (p.domain s v).mergeSort s =
            some r₁ ∧ r₁.after (.node depth) = r := by
          simpa [Option.bind_eq_some_iff] using hr
        have hdomain : ∀ x ∈ (p.domain s v).mergeSort, x ∈ n.base v ∧ n.Fits (value s) v x :=
          fun x hx => (hp.mem_domain s v hmem x).mp (List.mem_mergeSort.mp hx)
        have hvars : ∀ x t, value t = (value s).set v x → p.openVars t = vs := fun _ _ ht => hp.openVars_of_first ht hvs
        rw [hvs] at hl ⊢
        refine hp.tryValues_precedes hc hv hopen ?_ (fun x hx => (hdomain x hx).1) (fun x _ t ht => ?_) rfl hr₁ hok
          hg ?_
        · exact List.pairwise_mergeSort' (· ≤ ·) (p.domain s v)
        · have hlt : (p.openVars t).length < levels := by
            rw [hvars x t ht]
            exact Nat.lt_of_succ_lt_succ hl
          obtain ⟨r₂, hr₂, hset⟩ := hp.branch_settles hc .natural (depth + 1) hlt
          rw [ht] at hset
          refine ⟨r₂, hr₂, hset, fun hsolved g hg => ?_⟩
          rw [← hvars x t ht]
          exact ih hlt hr₂ hsolved (ht ▸ hg)
        · obtain ⟨x, hx⟩ := Option.isSome_iff_exists.mp (hg.total v hv)
          obtain ⟨hbase, -, hfits⟩ := hg.filled v hv hopen x hx
          exact ⟨x, List.mem_mergeSort.mpr ((hp.mem_domain s v hmem x).mpr ⟨hbase, hfits.mono hg.keeps⟩), hx⟩

end Network

end TreeSearch
