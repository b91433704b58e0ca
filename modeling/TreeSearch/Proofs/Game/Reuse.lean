import TreeSearch.Proofs.TicTacToe.Rules

/-!
# Engines used again

An engine keeps the tally of its last search and nothing else that changes, so its searches do not depend on each
other.

* `Engine.fresh`, `Engine.afterSearches`: an engine as it is built, and after searches made one after the other.
* `Engine.Rested e`: what every engine built for the search `e` keeps, whatever it is asked for: the search itself,
  and an empty tally if the settings do not pass the check.
* (one search) `Rested.after_bestMove`; (any number) `Rested.after_searches`.
* (independence) `bestMove_afterSearches`: the next search ends as the first one of a fresh engine does, with the same
  tally; where the settings are refused, every search is, and nothing is ever counted.
-/

namespace TreeSearch

variable {σ μ : Type}

/-- Settings that do not pass the check are refused for the worth of a win. -/
private theorem Config.check_of_ne_ok {c : Config} (h : c.check ≠ .ok ()) : c.check = .error c.refusal := by
  unfold check at h ⊢
  split
  · rename_i hw
    rw [if_pos hw] at h
    exact absurd rfl h
  · rfl

namespace Engine

/-- An engine as it is built. -/
def fresh (e : Search σ μ) : Engine σ μ := { e with }

/-- The engine after searches made one after the other, whether they succeed or not. -/
def afterSearches (engine : Engine σ μ) (calls : List (σ × Nat)) : Engine σ μ :=
  calls.foldl (fun engine call => (engine.bestMove call.1 call.2).2) engine

/-- A search with settings that pass the check starts its tally anew. -/
private theorem bestMove_of_ok (engine : Engine σ μ) (h : engine.config.check = .ok ()) (s : σ) (depth : Nat) :
    engine.bestMove s depth =
      ((engine.choose s depth).result, { engine with tally := (engine.choose s depth).tally }) := by
  rw [bestMove, h]

/-- A search with settings that are refused leaves the engine as it is. -/
private theorem bestMove_of_ne_ok (engine : Engine σ μ) (h : engine.config.check ≠ .ok ()) (s : σ) (depth : Nat) :
    engine.bestMove s depth = (.error engine.config.refusal, engine) := by
  rw [bestMove, Config.check_of_ne_ok h]

/-! ### What an engine keeps -/

/-- The engine searches as `e` says, and its tally is empty if the settings are refused. -/
structure Rested (e : Search σ μ) (engine : Engine σ μ) : Prop where
  toSearch_eq : engine.toSearch = e
  tally_eq : e.config.check ≠ .ok () → engine.tally = 0

private theorem rested_fresh (e : Search σ μ) : Rested e (fresh e) := ⟨rfl, fun _ => rfl⟩

variable {e : Search σ μ} {engine : Engine σ μ}

theorem Rested.after_bestMove (h : Rested e engine) (s : σ) (depth : Nat) : Rested e (engine.bestMove s depth).2 where
  toSearch_eq := (engine.toSearch_bestMove s depth).trans h.toSearch_eq
  tally_eq hcheck := by
    have htally := h.tally_eq hcheck
    rw [← h.toSearch_eq] at hcheck
    rw [bestMove_of_ne_ok engine hcheck, htally]

theorem Rested.after_searches (h : Rested e engine) (calls : List (σ × Nat)) :
    Rested e (engine.afterSearches calls) := by
  induction calls generalizing engine with
  | nil => exact h
  | cons call calls ih => exact ih (h.after_bestMove call.1 call.2)

/-- A rested engine searches as a fresh one does, and is left with the same tally. -/
private theorem Rested.bestMove_eq (h : Rested e engine) (s : σ) (depth : Nat) :
    engine.bestMove s depth = (fresh e).bestMove s depth := by
  obtain ⟨search, tally⟩ := engine
  obtain rfl : search = e := h.toSearch_eq
  rcases Classical.em ((fresh search).config.check = .ok ()) with hcheck | hcheck
  · rw [bestMove_of_ok _ hcheck, bestMove_of_ok ⟨search, tally⟩ hcheck]
    rfl
  · -- nothing has been counted, so the two engines are the same
    obtain rfl : tally = 0 := h.tally_eq hcheck
    rfl

/-- Whatever an engine has been asked for, the next search ends as on a fresh engine, and leaves the same tally.  If the
settings are refused, then so is every search, and the tally stays empty. -/
theorem bestMove_afterSearches (e : Search σ μ) (calls : List (σ × Nat)) (s : σ) (depth : Nat) :
    ((fresh e).afterSearches calls).bestMove s depth = (fresh e).bestMove s depth ∧
    (e.config.check ≠ .ok () →
      ((fresh e).afterSearches calls).tally = 0 ∧
      ((fresh e).afterSearches calls).bestMove s depth = (.error e.config.refusal, fresh e)) := by
  have hrested := (rested_fresh e).after_searches calls
  have heq := hrested.bestMove_eq s depth
  refine ⟨heq, ?_⟩
  intro hcheck
  exact ⟨hrested.tally_eq hcheck, heq.trans (bestMove_of_ne_ok (fresh e) hcheck s depth)⟩

/-- Where a win is worth nothing, no search is made on the grid, whatever has been asked for. -/
theorem bestMove_afterSearches_worthless :
    let e : Search TicTacToe.Position Nat := { game := TicTacToe.game, config := { winScore := 0 } }
    let engine := (fresh e).afterSearches [(.threeFree, 3), (.start, 0)]
    let worthless : Error := .invalidConfiguration "win score must be finite and positive, got 0"
    e.config.check ≠ .ok () ∧ engine.tally = 0 ∧ engine.bestMove .threeFree 3 = (.error worthless, fresh e) := by
  intro e engine worthless
  have hrefusal : e.config.refusal = worthless := by decide +kernel
  have hcheck : e.config.check ≠ .ok () := by
    have herror : e.config.check = .error e.config.refusal := by rw [Config.check, if_neg (by decide)]
    rw [herror]
    exact nofun
  obtain ⟨-, hrefused⟩ := bestMove_afterSearches e [(.threeFree, 3), (.start, 0)] .threeFree 3
  rw [hrefusal] at hrefused
  exact ⟨hcheck, hrefused hcheck⟩

end Engine

end TreeSearch
