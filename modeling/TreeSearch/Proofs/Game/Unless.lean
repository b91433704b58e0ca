import TreeSearch.Proofs.Game.Exhaustive

/-!
# The same search, unless a mark shows

Whether the horizon was reached, and whether anything was cut off, are marks of a tally: what two searches have counted
together shows a mark iff what one of them has counted shows it.

* `Counted.SameUnless mark y x`: `y` is the same computation as `x`, unless the tally of `x` shows the mark.
* (steps) `SameUnless.bind`: a tally without the mark comes from steps without it, so it is enough to compare the steps.
* (cut-offs) `SameUnless.cut`: if cut-offs are marked, then a search with pruning may be compared to one without.
* (moves) `pick_sameUnless`, `scan_sameUnless`: so it is enough to compare the visits of single moves.
-/

namespace TreeSearch

variable {σ μ : Type}

/-- Something that a sum of tallies shows iff one of its parts does. -/
structure Tally.Mark where
  shows : Tally → Bool
  shows_add : ∀ a b, shows (a + b) = (shows a || shows b)

/-- An unfinished position was scored. -/
def Tally.Mark.horizon : Mark := ⟨Tally.horizon, fun _ _ => rfl⟩

/-- Something was cut off. -/
def Tally.Mark.cut : Mark where
  shows t := t.cutoffs != 0
  shows_add a b := by
    rw [Bool.eq_iff_iff]
    simp only [add_cutoffs, bne_iff_ne, Bool.or_eq_true]
    omega

theorem Tally.Mark.cut_eq_false_iff {t : Tally} : cut.shows t = false ↔ t.cutoffs = 0 := by
  simp [cut]

namespace Counted

variable {α β : Type} {mark : Tally.Mark} {prune prune' : Bool}

/-- `y` does what `x` does, unless the tally of `x` shows the mark. -/
def SameUnless (mark : Tally.Mark) (y x : Counted α) : Prop := mark.shows x.tally = false → y = x

theorem SameUnless.refl (x : Counted α) : SameUnless mark x x := fun _ => rfl

/-- Anything may stand for a computation that shows the mark. -/
theorem sameUnless_of_shows {x : Counted α} (h : mark.shows x.tally = true) (y : Counted α) : SameUnless mark y x := by
  intro hx
  rw [h] at hx
  cases hx

theorem SameUnless.bind {x y : Counted α} {f g : α → Counted β} (h : SameUnless mark y x)
    (hfg : ∀ a, x.result = .ok a → SameUnless mark (g a) (f a)) : SameUnless mark (y >>= g) (x >>= f) := by
  intro hxf
  cases hx : x.result with
  | error e =>
    rw [bind_of_error hx] at hxf ⊢
    rw [h hxf, bind_of_error hx]
  | ok a =>
    rw [bind_of_ok hx] at hxf ⊢
    rw [mark.shows_add, Bool.or_eq_false_iff] at hxf
    rw [h hxf.1, bind_of_ok hx, hfg a hx hxf.2]

/-- The same where the moves go on unless the window is closed, and what is left then is cut off.  The two may differ in
whether they prune, if cut-offs are marked. -/
theorem SameUnless.cut (hprune : prune' = prune ∨ prune = true ∧ mark.shows .cutoff = true) (closed : Bool) (a : α)
    {rest rest' : Counted α} (h : SameUnless mark rest' rest) :
    SameUnless mark (if prune' && closed then count .cutoff >>= fun _ => pure a else rest')
      (if prune && closed then count .cutoff >>= fun _ => pure a else rest) := by
  cases closed with
  | false =>
    simp only [Bool.and_false, Bool.false_eq_true, if_false]
    exact h
  | true =>
    rcases hprune with rfl | ⟨rfl, hcut⟩
    · split
      · exact .refl _
      · exact h
    · -- the search with pruning ends here, and its tally says so
      refine sameUnless_of_shows ?_ _
      show mark.shows (.cutoff + 0) = true
      rw [Tally.add_zero, hcut]

end Counted

namespace Search

open Counted (SameUnless)

variable {visit visit' : μ → Window → Counted Float} {mark : Tally.Mark} {prune prune' : Bool} {ms : List μ}

/-- If the visits of single moves are the same unless the mark shows, so are the searches of the root that use them. -/
theorem pick_sameUnless (hprune : prune' = prune ∨ prune = true ∧ mark.shows .cutoff = true) (side : Side)
    (h : ∀ m ∈ ms, ∀ w, SameUnless mark (visit' m w) (visit m w)) (best : Option μ × Float) (w : Window) :
    SameUnless mark (pick prune' side visit' best w ms) (pick prune side visit best w ms) := by
  induction ms generalizing best w with
  | nil => exact .refl _
  | cons m ms ih =>
    have htail := ih fun m' hm' => h m' (List.mem_cons_of_mem _ hm')
    refine (h m (List.mem_cons_self ..) w).bind fun v _ => ?_
    exact .cut hprune _ _ (htail _ _)

theorem scan_sameUnless (hprune : prune' = prune ∨ prune = true ∧ mark.shows .cutoff = true) (side : Side)
    (h : ∀ m ∈ ms, ∀ w, SameUnless mark (visit' m w) (visit m w)) (best : Float) (w : Window) :
    SameUnless mark (scan prune' side visit' best w ms) (scan prune side visit best w ms) := by
  induction ms generalizing best w with
  | nil => exact .refl _
  | cons m ms ih =>
    have htail := ih fun m' hm' => h m' (List.mem_cons_of_mem _ hm')
    refine (h m (List.mem_cons_self ..) w).bind fun v _ => ?_
    exact .cut hprune _ _ (htail _ _)

end Search

end TreeSearch
