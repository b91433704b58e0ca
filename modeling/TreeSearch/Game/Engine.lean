import TreeSearch.Game.Search

/-!
# Search engines

An engine is a search with the tally of its last run.  Settings that do not pass `Config.check` are refused before
anything is counted, and the tally stays as it was.
-/

namespace TreeSearch

structure Engine (σ μ : Type) extends Search σ μ where
  tally : Tally := 0

variable {σ μ : Type}

/-- The same engine with pruning switched on or off. -/
def Engine.withPruning (e : Engine σ μ) (on : Bool) : Engine σ μ :=
  { e with config := { e.config with pruning := on } }

/-- The same engine with another worth of a win. -/
def Engine.withWinScore (e : Engine σ μ) (w : Float) : Engine σ μ :=
  { e with config := { e.config with winScore := w } }

/-- The same engine with another way to score positions. -/
def Engine.withEvaluator (e : Engine σ μ) (evaluator : Evaluator σ) : Engine σ μ := { e with evaluator }

/-- The best move of a position and its value, and the engine with the tally of this run. -/
def Engine.bestMove (e : Engine σ μ) (s : σ) (depth : Nat) :
    Except Error (Option μ × Float) × Engine σ μ :=
  match e.config.check with
  | .error err => (.error err, e)
  | .ok () =>
    let run := e.toSearch.choose s depth
    (run.result, { e with tally := run.tally })

namespace Engine

@[simp] theorem game_withPruning (e : Engine σ μ) (on : Bool) : (e.withPruning on).game = e.game := rfl
@[simp] theorem pruning_withPruning (e : Engine σ μ) (on : Bool) : (e.withPruning on).config.pruning = on := rfl
@[simp] theorem score_withPruning (e : Engine σ μ) (on : Bool) (s : σ) :
    (e.withPruning on).score s = e.score s := rfl

theorem bestMove_of_check {e : Engine σ μ} (h : e.config.check = .ok ()) (s : σ) (depth : Nat) :
    (e.bestMove s depth).1 = (e.choose s depth).result := by
  rw [bestMove, h]

theorem tally_bestMove_of_check {e : Engine σ μ} (h : e.config.check = .ok ()) (s : σ) (depth : Nat) :
    (e.bestMove s depth).2.tally = (e.choose s depth).tally := by
  rw [bestMove, h]

theorem check_of_bestMove {e : Engine σ μ} {s : σ} {depth : Nat} {r : Option μ × Float}
    (h : (e.bestMove s depth).1 = .ok r) : e.config.check = .ok () := by
  unfold bestMove at h
  split at h
  · cases h
  · assumption

/-- Only the tally changes. -/
@[simp] theorem toSearch_bestMove (e : Engine σ μ) (s : σ) (depth : Nat) :
    (e.bestMove s depth).2.toSearch = e.toSearch := by
  unfold bestMove
  split <;> rfl

/-- The tally of earlier runs does not matter. -/
theorem bestMove_congr {e e' : Engine σ μ} (h : e.toSearch = e'.toSearch) (s : σ) (depth : Nat) :
    (e.bestMove s depth).1 = (e'.bestMove s depth).1 := by
  unfold bestMove
  rw [h]
  split <;> rfl

end Engine

end TreeSearch
