import TreeSearch.Game.Basic

/-!
# Scores of positions

An evaluator scores a position, given the score `w` of a win.

* `Game.terminalScore` is `w` if plus has won, `-w` if minus has won, and `0` otherwise.
* `Game.heuristic h` asks `h` about unfinished positions only.
-/

namespace TreeSearch

abbrev Evaluator (σ : Type) := σ → Float → Float

variable {σ μ : Type}

/-- The score of a position by its winner. -/
def Game.terminalScore (g : Game σ μ) : Evaluator σ := fun s w =>
  match g.winner s with
  | some .plus => w
  | some .minus => -w
  | none => 0

/-- The score by the winner where the game is over, and by `h` elsewhere. -/
def Game.heuristic (g : Game σ μ) (h : σ → Float) : Evaluator σ := fun s w =>
  if g.terminal s then g.terminalScore s w else h s

theorem Game.heuristic_of_terminal {g : Game σ μ} {s : σ} (hs : g.terminal s = true) (h : σ → Float) (w : Float) :
    g.heuristic h s w = g.terminalScore s w := by simp [heuristic, hs]

end TreeSearch
