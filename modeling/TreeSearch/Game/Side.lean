/-!
# The two sides

`plus` wants a high score and `minus` a low one.

* `better side best v` is the better of two scores for `side`: the new one only if it is strictly better, so the
  first of equal scores stays and a value that is no number never replaces another.
* `worst side` is the score that every other one improves.
-/

namespace TreeSearch

/-- The score above all others. -/
def infinity : Float := Float.ofBits 0x7FF0000000000000

inductive Side where
  | plus
  | minus
  deriving DecidableEq, Repr

namespace Side

def opponent : Side → Side
  | plus => minus
  | minus => plus

def sign : Side → Int
  | plus => 1
  | minus => -1

/-- Whether the side wants a high score. -/
def maximizes : Side → Bool
  | plus => true
  | minus => false

/-- The sign, always written out. -/
def text : Side → String
  | plus => "+1"
  | minus => "-1"

@[simp] theorem opponent_opponent (side : Side) : side.opponent.opponent = side := by cases side <;> rfl

theorem eq_opponent_of_ne {side other : Side} (h : other ≠ side) : other = side.opponent := by
  cases side <;> cases other <;> first | rfl | exact absurd rfl h

/-! ### Comparing scores -/

/-- The score that a side starts from when it looks for its best move. -/
def worst : Side → Float
  | plus => -infinity
  | minus => infinity

/-- Whether `v` is strictly better than `w` for the side. -/
def prefers : Side → Float → Float → Bool
  | plus, v, w => w < v
  | minus, v, w => v < w

/-- The better of the score held so far and a new one. -/
def better (side : Side) (best v : Float) : Float := if side.prefers v best then v else best

end Side

end TreeSearch
