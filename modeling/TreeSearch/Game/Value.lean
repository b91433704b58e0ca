import TreeSearch.Game.Line
import TreeSearch.Game.Search

/-!
# The value of a position

The value that depth-limited minimax assigns to a position, said without windows, counters or an order of visits.

* `Side.best` is the first score of a list that no other one beats; scores that are no number do not take part, and
  an empty list gives the worst score of the side.
* `Search.minimax` is the score of a position where the tree ends, and elsewhere the best value of its children.
* `Search.optimal` is the first move that leads to the value of the position.  There is none where the tree ends,
  and none where no move leads to anything better than the worst score.
-/

namespace TreeSearch

/-- The best score of a list for a side. -/
def Side.best (side : Side) (vs : List Float) : Float :=
  ((vs.filter fun v => !v.isNaN).find? fun v => vs.all fun u => !side.prefers u v).getD side.worst

variable {σ μ : Type}

/-- The value of a position with `depth` moves to look ahead. -/
def Search.minimax (e : Search σ μ) : Nat → σ → Float
  | 0, s => e.score s
  | depth + 1, s =>
    if e.game.terminal s || (e.game.moves s).isEmpty then e.score s
    else (e.game.turn s).best ((e.game.children s).map (e.minimax depth))

/-- The value of the position after a move; a refused move is worth the worst score. -/
def Search.valueAfter (e : Search σ μ) (depth : Nat) (s : σ) (m : μ) : Float :=
  match e.game.step s m with
  | .ok t => e.minimax depth t
  | .error _ => (e.game.turn s).worst

/-- The first move with the value of the position, if that value is better than the worst score. -/
def Search.optimal (e : Search σ μ) : Nat → σ → Option μ
  | 0, _ => none
  | depth + 1, s =>
    if e.game.terminal s then none
    else (e.game.moves s).find? fun m =>
      e.valueAfter depth s m == e.minimax (depth + 1) s &&
        (e.game.turn s).prefers (e.valueAfter depth s m) (e.game.turn s).worst

theorem Search.minimax_of_terminal {e : Search σ μ} {s : σ} (h : e.game.terminal s = true) (depth : Nat) :
    e.minimax depth s = e.score s := by
  cases depth <;> simp [minimax, h]

end TreeSearch
