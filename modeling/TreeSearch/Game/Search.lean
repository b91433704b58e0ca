import TreeSearch.Game.Config
import TreeSearch.Game.Counted
import TreeSearch.Game.Evaluator
import TreeSearch.Game.Window

/-!
# Depth-limited minimax search

The value of a position is its score if the game is over, the depth has run out or no move is legal, and otherwise
the best value among the positions after its legal moves, for the side to move.

* Moves are tried in their order and a move replaces the best so far only if it is strictly better, so the first of
  several equally good moves is chosen.
* With pruning, the moves after one that closes the window are skipped.
* `value` is the recursion over the tree and counts each position it enters; `choose` is the search from the root,
  which names the move it found and is not counted itself.
* The recursion narrows its window by a strictly better score, and the root tightens its own to the better of the two
  bounds.
-/

namespace TreeSearch

/-- A game together with the way its positions are searched and scored. -/
structure Search (σ μ : Type) where
  game : Game σ μ
  config : Config := {}
  evaluator : Evaluator σ := game.terminalScore

namespace Search

variable {σ μ : Type}

/-- The score of a position at which the search stops. -/
def score (e : Search σ μ) (s : σ) : Float := e.evaluator s e.config.winScore

/-- The position after a move that the game may refuse. -/
def play (e : Search σ μ) (s : σ) (m : μ) : Counted σ := Counted.ofExcept (e.game.step s m)

/-- Tries the moves in turn with `visit`, which values the position after a move in the window it is given, and
ends with the best score found. -/
def scan (prune : Bool) (side : Side) (visit : μ → Window → Counted Float) : Float → Window → List μ → Counted Float
  | best, _, [] => pure best
  | best, w, m :: ms => do
    let v ← visit m w
    let best := side.better best v
    let w := w.narrow side best
    if prune && w.closed then
      Counted.count .cutoff
      pure best
    else
      scan prune side visit best w ms

/-- The value of a position searched `depth` moves deep. -/
def value (e : Search σ μ) : Nat → σ → Window → Counted Float
  | 0, s, _ => do
    Counted.count .node
    if e.game.terminal s then pure (e.score s)
    else
      Counted.count .horizonReached
      pure (e.score s)
  | depth + 1, s, w => do
    Counted.count .node
    if e.game.terminal s || (e.game.moves s).isEmpty then pure (e.score s)
    else
      let side := e.game.turn s
      scan e.config.pruning side (fun m w => e.play s m >>= fun next => e.value depth next w)
        side.worst w (e.game.moves s)

/-- Tries the moves at the root in turn and keeps the move that led to the best score beside that score. -/
def pick (prune : Bool) (side : Side) (visit : μ → Window → Counted Float) :
    Option μ × Float → Window → List μ → Counted (Option μ × Float)
  | best, _, [] => pure best
  | best, w, m :: ms => do
    let v ← visit m w
    let best := if side.prefers v best.2 then (some m, v) else best
    let w := w.tighten side best.2
    if prune && w.closed then
      Counted.count .cutoff
      pure best
    else
      pick prune side visit best w ms

/-- The best move of a position and its value, searched `depth` moves deep. -/
def choose (e : Search σ μ) (s : σ) : Nat → Counted (Option μ × Float)
  | 0 =>
    if e.game.terminal s then pure (none, e.score s)
    else do
      Counted.count .horizonReached
      pure (none, e.score s)
  | depth + 1 =>
    if e.game.terminal s || (e.game.moves s).isEmpty then pure (none, e.score s)
    else
      let side := e.game.turn s
      pick e.config.pruning side (fun m w => e.play s m >>= fun next => e.value depth next w)
        (none, side.worst) .full (e.game.moves s)

end Search

end TreeSearch
