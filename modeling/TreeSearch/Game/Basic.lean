import TreeSearch.Error
import TreeSearch.Game.Side

/-!
# Games

A game of two sides with perfect information, given by what can be asked of a position: the legal moves in their
order, the position after a move, whether the game is over, who has won, and who is to move.

* The side to move is part of the position, so a side may move several times in a row.
* `step` may refuse a move; nothing ties its refusals to `moves`.
-/

namespace TreeSearch

/-- A game with positions `σ` and moves `μ`. -/
structure Game (σ μ : Type) where
  moves : σ → List μ
  step : σ → μ → Except Error σ
  terminal : σ → Bool
  winner : σ → Option Side
  turn : σ → Side

end TreeSearch
