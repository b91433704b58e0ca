import TreeSearch.Game.Side

/-!
# Windows of scores

A window holds the best scores that plus and minus are already sure of elsewhere in the tree: `lo` for plus, `hi`
for minus.  Once `hi ≤ lo` one of the two will avoid the position, and its remaining moves need no look.

A side's bound becomes a better one in two ways: `narrow` replaces it by a score that is strictly better, and `tighten`
takes the larger or the smaller of the two.  They agree where the bounds are numbers: `tighten_eq_narrow`.
-/

namespace TreeSearch

structure Window where
  lo : Float
  hi : Float
  deriving DecidableEq, Repr

namespace Window

/-- The window before anything is known. -/
def full : Window := ⟨-infinity, infinity⟩

/-- The window after `side` has made sure of the score `v`. -/
def narrow (w : Window) : Side → Float → Window
  | .plus, v => if w.lo < v then { w with lo := v } else w
  | .minus, v => if v < w.hi then { w with hi := v } else w

/-- The larger of two scores; a value that is no number gives way to the other one, and of equal scores the first
stays. -/
def larger (v w : Float) : Float := if v.isNaN || v < w then w else v

/-- The smaller of two scores; a value that is no number gives way to the other one, and of equal scores the first
stays. -/
def smaller (v w : Float) : Float := if v.isNaN || w < v then w else v

/-- The window with the better of two bounds for `side`, the one that it has and `v`. -/
def tighten (w : Window) : Side → Float → Window
  | .plus, v => { w with lo := larger w.lo v }
  | .minus, v => { w with hi := smaller w.hi v }

/-- No score lies strictly inside the window. -/
def closed (w : Window) : Bool := w.hi ≤ w.lo

/-- Both bounds are numbers. -/
structure IsNumeric (w : Window) : Prop where
  isNaN_lo : w.lo.isNaN = false
  isNaN_hi : w.hi.isNaN = false

theorem tighten_eq_narrow {w : Window} (hw : w.IsNumeric) (side : Side) (v : Float) :
    w.tighten side v = w.narrow side v := by
  cases side with
  | plus =>
    simp only [tighten, narrow, larger, hw.isNaN_lo, Bool.false_or, decide_eq_true_eq]
    split <;> rfl
  | minus =>
    simp only [tighten, narrow, smaller, hw.isNaN_hi, Bool.false_or, decide_eq_true_eq]
    split <;> rfl

end Window

end TreeSearch
