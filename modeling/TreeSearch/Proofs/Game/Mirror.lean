import TreeSearch.Proofs.Game.Correspondence

/-!
# The sides exchanged

In the mirror image of a game the opponent is to move wherever a side was, and every score counts for the opponent what
it counted for the side.

* (order) `Side.prefers_neg`: of negated scores the opponent prefers what the side prefers of the scores.
* (search) `Engine.bestMove_mirrored`: so a search of the mirror image finds the same move with the negated value, and
  counts the same.
-/

namespace TreeSearch

variable {σ μ : Type}

namespace Side

private theorem rank_opponent_neg (side : Side) (v : Float) : side.opponent.rank (-v) = side.rank v := by
  cases side <;> simp [opponent, rank, Score.rank_neg]

theorem prefers_neg (side : Side) (v w : Float) : side.opponent.prefers (-v) (-w) = side.prefers v w := by
  rw [Bool.eq_iff_iff, prefers_iff, prefers_iff, Score.isNaN_neg, Score.isNaN_neg, rank_opponent_neg,
    rank_opponent_neg]

private theorem worst_opponent (side : Side) : side.opponent.worst = -side.worst := by
  symm
  apply eq_worst_of_rank
  have htop : side.opponent.rank (-side.worst) = -Score.top := by rw [rank_opponent_neg, rank_worst]
  exact Int.le_of_eq htop

end Side

/-- Scores correspond to their negations if the sides change their places. -/
private theorem correspondence_neg : Correspondence Side.opponent fun v v' => v' = -v where
  opponent _ := rfl
  prefers_eq := by
    rintro v _ w _ rfl rfl side
    exact side.prefers_neg v w
  worst := Side.worst_opponent

/-- The same game with the opponent to move. -/
def Game.mirrored (g : Game σ μ) : Game σ μ := { g with turn := fun s => (g.turn s).opponent }

/-- The engine for the mirrored game, with all scores negated. -/
def Engine.mirrored (e : Engine σ μ) : Engine σ μ :=
  { e with game := e.game.mirrored, evaluator := fun s w => -e.evaluator s w }

private theorem Engine.corresponds_mirrored (e : Engine σ μ) :
    e.toSearch.Corresponds Side.opponent (fun v v' => v' = -v) e.mirrored.toSearch where
  moves_eq := rfl
  step_eq := rfl
  terminal_eq := rfl
  turn_eq _ := rfl
  pruning_eq := rfl
  score _ := rfl

/-- With the sides exchanged and the scores negated, a search finds the same move and the negated value or fails with
the same error, and counts the same. -/
theorem Engine.bestMove_mirrored (e : Engine σ μ) (s : σ) (depth : Nat) :
    (e.mirrored.bestMove s depth).1 = (e.bestMove s depth).1.map (fun r => (r.1, -r.2)) ∧
      (e.mirrored.bestMove s depth).2.tally = (e.bestMove s depth).2.tally :=
  bestMove_of_corresponds correspondence_neg e.corresponds_mirrored rfl rfl (fun _ _ h => h) s depth

end TreeSearch
