import TreeSearch.Game.Player

/-!
# Playing a game

Two players play from a position until the game is over, the side to move has nothing to play, or something fails.

* A finished position is shown to nobody; any other is shown once, to the player of the side to move.
* The record keeps every request with its answer, in order, and what both players remember afterwards.
* A game may go on for ever, so the number of requests has a limit; `none` means that the limit was reached, and a
  larger limit changes nothing else.
-/

namespace TreeSearch

/-- A position shown to the player of a side, and the answer. -/
structure Request (σ μ : Type) where
  side : Side
  position : σ
  answer : Except Error (Option μ)

/-- How a game went. -/
structure Record (σ μ ι κ : Type) where
  requests : List (Request σ μ) := []
  outcome : Except Error σ
  plus : ι
  minus : κ

/-- The two players at a game, with what they remember. -/
structure Table (σ μ ι κ : Type) where
  plus : Player ι σ μ
  minus : Player κ σ μ

namespace Table

variable {σ μ ι κ : Type}

/-- Shows a position to the player of a side. -/
def ask (t : Table σ μ ι κ) : Side → σ → ι → κ → Except Error (Option μ) × ι × κ
  | .plus, s, i, k => let (answer, i) := t.plus.choose s i; (answer, i, k)
  | .minus, s, i, k => let (answer, k) := t.minus.choose s k; (answer, i, k)

/-- Plays on from a position with at most `limit` requests. -/
def play (t : Table σ μ ι κ) (g : Game σ μ) : Nat → σ → ι → κ → Option (Record σ μ ι κ)
  | 0, s, i, k => if g.terminal s then some { outcome := .ok s, plus := i, minus := k } else none
  | limit + 1, s, i, k =>
    if g.terminal s then some { outcome := .ok s, plus := i, minus := k }
    else
      let (answer, i, k) := t.ask (g.turn s) s i k
      let request : Request σ μ := ⟨g.turn s, s, answer⟩
      match answer with
      | .error e => some { requests := [request], outcome := .error e, plus := i, minus := k }
      | .ok none => some { requests := [request], outcome := .ok s, plus := i, minus := k }
      | .ok (some m) =>
        match g.step s m with
        | .error e => some { requests := [request], outcome := .error e, plus := i, minus := k }
        | .ok next => (t.play g limit next i k).map fun r => { r with requests := request :: r.requests }

end Table

end TreeSearch
