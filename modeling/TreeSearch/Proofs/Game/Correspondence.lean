import TreeSearch.Proofs.Game.Contract
import TreeSearch.Proofs.Game.Order

/-!
# Searches that correspond to each other

Two searches go through the same moves, and cut off at the same places, if the scores of one are ordered as those of
the other.  The sides may change their places on the way: `image side` is the side of the second search that stands
for `side`.

* `Correspondence image R`: scores related by `R` are ordered alike, as `side` sees the first ones and `image side` the
  second ones, and the scores that the sides start from are related.
* `Counted.Rel R`: two computations with the same tally that end with related results, or with the same error.
* (windows) `Window.Corresponds.narrow`, `Window.Corresponds.closed_eq`: corresponding windows stay so when
  corresponding sides make sure of related scores, and they are closed together.
* (moves) `Correspondence.pick`, `Correspondence.scan`: if the visits of single moves correspond, so does going through
  the moves.
* (whole tree) `Search.Corresponds.value`, `Search.Corresponds.choose`: so corresponding searches count the same, and
  find the same move and related values.
-/

namespace TreeSearch

variable {σ μ : Type}

namespace Counted

variable {α β γ δ : Type}

/-- The same tally, and related results or the same error. -/
inductive Rel (R : α → β → Prop) : Counted α → Counted β → Prop
  | ok {a b} (t : Tally) (h : R a b) : Rel R ⟨.ok a, t⟩ ⟨.ok b, t⟩
  | error (e : Error) (t : Tally) : Rel R ⟨.error e, t⟩ ⟨.error e, t⟩

variable {R : α → β → Prop} {S : γ → δ → Prop} {x : Counted α} {y : Counted β}

theorem Rel.pure {a : α} {b : β} (h : R a b) : Rel R (Pure.pure a) (Pure.pure b) := .ok 0 h

theorem Rel.refl (x : Counted α) : Rel (fun a b => a = b) x x := by
  obtain ⟨r, t⟩ := x
  cases r with
  | ok a => exact .ok t rfl
  | error e => exact .error e t

theorem Rel.bind (h : Rel R x y) {f : α → Counted γ} {g : β → Counted δ} (hfg : ∀ a b, R a b → Rel S (f a) (g b)) :
    Rel S (x >>= f) (y >>= g) := by
  cases h with
  | error e t => exact .error e t
  | @ok a b t h =>
    rw [bind_of_ok (x := ⟨.ok a, t⟩) rfl, bind_of_ok (x := ⟨.ok b, t⟩) rfl]
    have hab := hfg a b h
    generalize f a = u at hab
    generalize g b = v at hab
    cases hab with
    | ok t' h' => exact .ok _ h'
    | error e t' => exact .error e _

theorem Rel.map (h : Rel R x y) {f : α → γ} {g : β → δ} (hfg : ∀ a b, R a b → S (f a) (g b)) :
    Rel S (f <$> x) (g <$> y) := by
  rw [← bind_pure_comp, ← bind_pure_comp]
  exact h.bind fun a b hab => .pure (hfg a b hab)

theorem Rel.tally_eq (h : Rel R x y) : y.tally = x.tally := by
  cases h <;> rfl

theorem Rel.result (h : Rel R x y) :
    (∃ e, x.result = .error e ∧ y.result = .error e) ∨ ∃ a b, x.result = .ok a ∧ y.result = .ok b ∧ R a b := by
  cases h with
  | ok t h => exact Or.inr ⟨_, _, rfl, rfl, h⟩
  | error e t => exact Or.inl ⟨e, rfl, rfl⟩

/-- Where related results are the same but for `f`, so are related computations. -/
private theorem Rel.result_eq_map {f : α → β} (hR : ∀ a b, R a b → b = f a) (h : Rel R x y) :
    y.result = x.result.map f := by
  rcases h.result with ⟨e, hx, hy⟩ | ⟨a, b, hx, hy, hab⟩
  · rw [hx, hy]; rfl
  · rw [hx, hy, hR a b hab]; rfl

end Counted

/-! ### Sides and scores -/

/-- Scores related by `R` are ordered alike, where `image side` stands for `side`. -/
structure Correspondence (image : Side → Side) (R : Float → Float → Prop) : Prop where
  opponent : ∀ side : Side, image side.opponent = (image side).opponent
  prefers_eq : ∀ {v v' w w'}, R v v' → R w w' → ∀ side : Side, (image side).prefers v' w' = side.prefers v w
  worst : ∀ side : Side, R side.worst (image side).worst

theorem SameOrder.correspondence {R : Float → Float → Prop} (h : SameOrder R) : Correspondence id R where
  opponent _ := rfl
  prefers_eq hv hw side := (h.prefers_eq hv hw side).symm
  worst := h.worst

variable {image : Side → Side} {R : Float → Float → Prop}

private theorem Correspondence.better (h : Correspondence image R) (side : Side) {best best' v v' : Float}
    (hb : R best best') (hv : R v v') : R (side.better best v) ((image side).better best' v') := by
  unfold Side.better
  rw [h.prefers_eq hv hb]
  split
  · exact hv
  · exact hb

/-! ### Windows -/

namespace Window

/-- What a side is sure of. -/
def sure (w : Window) : Side → Float
  | .plus => w.lo
  | .minus => w.hi

private theorem sure_narrow (w : Window) (side : Side) (v : Float) :
    (w.narrow side v).sure side = side.better (w.sure side) v := by
  cases side with
  | plus => by_cases h : w.lo < v <;> simp [narrow, sure, Side.better, Side.prefers, h]
  | minus => by_cases h : v < w.hi <;> simp [narrow, sure, Side.better, Side.prefers, h]

private theorem sure_narrow_opponent (w : Window) (side : Side) (v : Float) :
    (w.narrow side v).sure side.opponent = w.sure side.opponent := by
  cases side <;> simp only [narrow] <;> split <;> rfl

/-- A window of numbers is closed iff what a side's opponent is sure of is no better for the side. -/
theorem IsNumeric.closed_eq {w : Window} (hw : w.IsNumeric) (side : Side) :
    w.closed = !side.prefers (w.sure side.opponent) (w.sure side) := by
  have hopen := hw.closed_eq_false_iff
  have hprefers : side.prefers (w.sure side.opponent) (w.sure side) = decide (w.lo < w.hi) := by
    cases side <;> rfl
  rw [hprefers]
  cases hc : w.closed with
  | false => simp [hopen.mp hc]
  | true =>
    have hlt : ¬w.lo < w.hi := by rw [← hopen, hc]; decide
    simp [hlt]

/-- Windows of numbers in which corresponding sides are sure of related scores. -/
structure Corresponds (image : Side → Side) (R : Float → Float → Prop) (w w' : Window) : Prop where
  isNumeric : w.IsNumeric
  isNumeric' : w'.IsNumeric
  sure : ∀ side, R (w.sure side) (w'.sure (image side))

private theorem corresponds_full (h : Correspondence image R) : full.Corresponds image R full := by
  have hworst : ∀ side, full.sure side = side.worst := by
    intro side
    cases side <;> rfl
  refine ⟨isNumeric_full, isNumeric_full, fun side => ?_⟩
  rw [hworst, hworst]
  exact h.worst side

namespace Corresponds

variable {w w' : Window}

theorem narrow (h : Correspondence image R) (hw : w.Corresponds image R w') (side : Side) {v v' : Float} (hv : R v v') :
    (w.narrow side v).Corresponds image R (w'.narrow (image side) v') := by
  refine ⟨hw.isNumeric.narrow side v, hw.isNumeric'.narrow _ v', fun other => ?_⟩
  by_cases hother : other = side
  · rw [hother, sure_narrow, sure_narrow]
    exact h.better side (hw.sure side) hv
  · rw [Side.eq_opponent_of_ne hother, h.opponent, sure_narrow_opponent, sure_narrow_opponent, ← h.opponent]
    exact hw.sure _

theorem closed_eq (h : Correspondence image R) (hw : w.Corresponds image R w') : w'.closed = w.closed := by
  rw [hw.isNumeric.closed_eq .plus, hw.isNumeric'.closed_eq (image .plus), ← h.opponent,
    h.prefers_eq (hw.sure _) (hw.sure _)]

end Corresponds

end Window

/-! ### Going through the moves -/

/-- The same move, with related scores. -/
def Kept (R : Float → Float → Prop) (best best' : Option μ × Float) : Prop := best.1 = best'.1 ∧ R best.2 best'.2

namespace Correspondence

variable {visit visit' : μ → Window → Counted Float} {ms : List μ}

/-- If the visits of single moves correspond, so do the searches of the root that use them. -/
theorem pick (h : Correspondence image R) (prune : Bool) (side : Side)
    (hvisit : ∀ m ∈ ms, ∀ {w w' : Window}, w.Corresponds image R w' → (visit m w).Rel R (visit' m w'))
    {best best' : Option μ × Float} (hbest : Kept R best best') {w w' : Window} (hw : w.Corresponds image R w') :
    (Search.pick prune side visit best w ms).Rel (Kept R) (Search.pick prune (image side) visit' best' w' ms) := by
  induction ms generalizing best best' w w' with
  | nil => exact .pure hbest
  | cons m ms ih =>
    have htail : ∀ m' ∈ ms, ∀ {w w' : Window}, w.Corresponds image R w' → (visit m' w).Rel R (visit' m' w') :=
      fun m' hm' _ _ => hvisit m' (List.mem_cons_of_mem _ hm')
    simp only [Search.pick]
    refine (hvisit m (List.mem_cons_self ..) hw).bind fun v v' hv => ?_
    rw [h.prefers_eq hv hbest.2]
    have hkept : Kept R (if side.prefers v best.2 = true then (some m, v) else best)
        (if side.prefers v best.2 = true then (some m, v') else best') := by
      split
      · exact ⟨rfl, hv⟩
      · exact hbest
    generalize (if side.prefers v best.2 = true then (some m, v) else best) = held at hkept ⊢
    generalize (if side.prefers v best.2 = true then (some m, v') else best') = held' at hkept ⊢
    have hw' := hw.narrow h side hkept.2
    rw [Window.tighten_eq_narrow hw.isNumeric, Window.tighten_eq_narrow hw.isNumeric', hw'.closed_eq h]
    split
    · exact (Counted.Rel.refl _).bind fun _ _ _ => .pure hkept
    · exact ih htail hkept hw'

theorem scan (h : Correspondence image R) (prune : Bool) (side : Side)
    (hvisit : ∀ m ∈ ms, ∀ {w w' : Window}, w.Corresponds image R w' → (visit m w).Rel R (visit' m w'))
    {best best' : Float} (hbest : R best best') {w w' : Window} (hw : w.Corresponds image R w') :
    (Search.scan prune side visit best w ms).Rel R (Search.scan prune (image side) visit' best' w' ms) := by
  rw [← Search.snd_pick prune side visit (none, best) hw.isNumeric,
    ← Search.snd_pick prune (image side) visit' (none, best') hw.isNumeric']
  have hkept : Kept R ((none : Option μ), best) (none, best') := ⟨rfl, hbest⟩
  exact (h.pick prune side hvisit hkept hw).map fun _ _ hkept => hkept.2

end Correspondence

/-! ### Whole searches -/

namespace Search

/-- The same moves at corresponding sides' turns, with related scores. -/
structure Corresponds (image : Side → Side) (R : Float → Float → Prop) (e e' : Search σ μ) : Prop where
  moves_eq : e'.game.moves = e.game.moves
  step_eq : e'.game.step = e.game.step
  terminal_eq : e'.game.terminal = e.game.terminal
  turn_eq : ∀ s, e'.game.turn s = image (e.game.turn s)
  pruning_eq : e'.config.pruning = e.config.pruning
  score : ∀ s, R (e.score s) (e'.score s)

variable {e e' : Search σ μ}

private theorem Corresponds.visit (he : e.Corresponds image R e') (s : σ) (m : μ) {search search' : σ → Counted Float}
    (hsearch : ∀ t, (search t).Rel R (search' t)) : (e.play s m >>= search).Rel R (e'.play s m >>= search') := by
  have hplay : e'.play s m = e.play s m := by rw [play, play, he.step_eq]
  rw [hplay]
  refine (Counted.Rel.refl _).bind ?_
  rintro t _ rfl
  exact hsearch t

/-- Corresponding searches find related values in corresponding windows. -/
theorem Corresponds.value (h : Correspondence image R) (he : e.Corresponds image R e') (depth : Nat) (s : σ)
    {w w' : Window} (hw : w.Corresponds image R w') : (e.value depth s w).Rel R (e'.value depth s w') := by
  induction depth generalizing s w w' with
  | zero =>
    rw [Search.value, Search.value, he.terminal_eq]
    refine (Counted.Rel.refl _).bind fun _ _ _ => ?_
    split
    · exact .pure (he.score s)
    · exact (Counted.Rel.refl _).bind fun _ _ _ => .pure (he.score s)
  | succ depth ih =>
    rw [Search.value, Search.value, he.terminal_eq, he.moves_eq, he.turn_eq, he.pruning_eq]
    refine (Counted.Rel.refl _).bind fun _ _ _ => ?_
    split
    · exact .pure (he.score s)
    · refine h.scan _ _ (fun m _ w w' hw => ?_) (h.worst _) hw
      exact he.visit s m fun t => ih t hw

/-- At the root corresponding searches find the same move and related values. -/
theorem Corresponds.choose (h : Correspondence image R) (he : e.Corresponds image R e') (s : σ) (depth : Nat) :
    (e.choose s depth).Rel (Kept R) (e'.choose s depth) := by
  have hleaf : Kept R ((none : Option μ), e.score s) (none, e'.score s) := ⟨rfl, he.score s⟩
  cases depth with
  | zero =>
    simp only [Search.choose, he.terminal_eq]
    split
    · exact .pure hleaf
    · exact (Counted.Rel.refl _).bind fun _ _ _ => .pure hleaf
  | succ depth =>
    simp only [Search.choose, he.terminal_eq, he.moves_eq, he.turn_eq, he.pruning_eq]
    split
    · exact .pure hleaf
    · have hstart : Kept R ((none : Option μ), (e.game.turn s).worst) (none, (image (e.game.turn s)).worst) :=
        ⟨rfl, h.worst _⟩
      refine h.pick _ _ (fun m _ w w' hw => ?_) hstart (Window.corresponds_full h)
      exact he.visit s m fun t => he.value h depth t hw

end Search

/-- Where the second score of related ones is a function of the first, so is the answer of the second engine. -/
theorem Engine.bestMove_of_corresponds {e e' : Engine σ μ} (h : Correspondence image R)
    (he : e.toSearch.Corresponds image R e'.toSearch) (hcheck : e'.config.check = e.config.check)
    (htally : e'.tally = e.tally) {f : Float → Float} (hf : ∀ v v', R v v' → v' = f v) (s : σ) (depth : Nat) :
    (e'.bestMove s depth).1 = (e.bestMove s depth).1.map (fun r => (r.1, f r.2)) ∧
      (e'.bestMove s depth).2.tally = (e.bestMove s depth).2.tally := by
  unfold bestMove
  rw [hcheck]
  split
  · exact ⟨rfl, htally⟩
  · have hrun := he.choose h s depth
    exact ⟨hrun.result_eq_map fun r r' hr => Prod.ext hr.1.symm (hf _ _ hr.2), hrun.tally_eq⟩

end TreeSearch
