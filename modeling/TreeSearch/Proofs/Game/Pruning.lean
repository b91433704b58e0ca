import TreeSearch.Proofs.Game.Contract
import TreeSearch.Proofs.Game.Order
import TreeSearch.Proofs.TicTacToe.Rules

/-!
# Pruning does not show

* (settings) `optimal_withPruning`, `minimax_withPruning`: the optimal move and the value of a position ask for the
  game and the scores, and not whether the search prunes.
* (either way) `bestMove_withPruning_of_sound`: in a tree without refused moves the search answers with the first
  optimal move and the value of the position, whether it prunes or not.
* (optimal play) `bestMove_eq_optimal`: in a tree without refused moves the search without pruning answers with the
  first optimal move and the value of the position.
* (pruning) `bestMove_withPruning_true`: whatever the search without pruning answers, the search with pruning
  answers too.
-/

namespace TreeSearch

variable {σ μ : Type}

namespace Engine

@[simp] theorem optimal_withPruning (e : Engine σ μ) (on : Bool) (depth : Nat) (s : σ) :
    (e.withPruning on).optimal depth s = e.optimal depth s := by
  apply SameOrder.eq.optimal
  · rfl
  · intro t; rfl

@[simp] theorem minimax_withPruning (e : Engine σ μ) (on : Bool) (depth : Nat) (s : σ) :
    (e.withPruning on).minimax depth s = e.minimax depth s := by
  apply SameOrder.eq.minimax
  · rfl
  · intro t; rfl

/-- In a sound tree the search finds the optimal move and the value, whether it prunes or not. -/
theorem bestMove_withPruning_of_sound {e : Engine σ μ} (hc : e.config.check = .ok ()) {s : σ} {depth : Nat}
    (hs : e.game.Sound depth s) (on : Bool) :
    ((e.withPruning on).bestMove s depth).1 = .ok (e.optimal depth s, e.minimax depth s) := by
  have hon : (e.withPruning on).config.check = .ok () := hc
  rw [bestMove_of_check hon, Search.choose_sound (e.withPruning on).toSearch hs, optimal_withPruning,
    minimax_withPruning]

/-- The search without pruning answers with the first optimal move and the value of the position. -/
theorem bestMove_eq_optimal {e : Engine σ μ} (hc : e.config.check = .ok ()) (hp : e.config.pruning = false)
    {s : σ} {depth : Nat} (hs : e.game.Sound depth s) :
    (e.bestMove s depth).1 = .ok (e.optimal depth s, e.minimax depth s) := by
  rw [bestMove_of_check hc]
  exact Search.choose_exhaustive hp hs

theorem bestMove_eq_optimal_threeFree :
    TicTacToe.game.Sound 3 .threeFree ∧
      ((TicTacToe.engine.withPruning false).bestMove .threeFree 3).1 =
        .ok ((TicTacToe.engine.withPruning false).optimal 3 .threeFree,
          (TicTacToe.engine.withPruning false).minimax 3 .threeFree) :=
  have hsound := (TicTacToe.honest .threeFree).sound 3
  ⟨hsound, bestMove_eq_optimal rfl rfl hsound⟩

/-- An answer found without pruning is found with pruning, move and value alike. -/
theorem bestMove_withPruning_true (e : Engine σ μ) (s : σ) (depth : Nat) {r : Option μ × Float}
    (h : ((e.withPruning false).bestMove s depth).1 = .ok r) :
    ((e.withPruning true).bestMove s depth).1 = .ok r := by
  have hcheck : e.config.check = .ok () := check_of_bestMove (e := e.withPruning false) h
  have hsound : e.game.Sound depth s := sound_of_bestMove h
  rw [bestMove_withPruning_of_sound hcheck hsound] at h
  rw [bestMove_withPruning_of_sound hcheck hsound, h]

theorem bestMove_withPruning_true_threeFree :
    ((TicTacToe.engine.withPruning false).bestMove .threeFree 3).1 = .ok (some 4, 0) ∧
      ((TicTacToe.engine.withPruning true).bestMove .threeFree 3).1 = .ok (some 4, 0) :=
  ⟨rfl, bestMove_withPruning_true TicTacToe.engine .threeFree 3 rfl⟩

end Engine

end TreeSearch
