import TreeSearch.Proofs.Game.Unless
import TreeSearch.Proofs.TicTacToe.Rules

/-!
# Searches that stay within the horizon

A search that never scores an unfinished position because the depth ran out has seen all it needs: a search that is
deeper, or scores unfinished positions in another way, visits the same positions, and ends with the same result and
the same tally.

* (two searches) `AgreeAtEnds.value_sameUnless`, `AgreeAtEnds.choose_sameUnless`: a search does the same as another one
  that is no deeper, unless that one reaches the horizon, if the two agree on the scores of positions where the game
  cannot go on.
* (depth) `Engine.bestMove_of_horizon`: so a deeper search finds the same.
* (heuristic) `Engine.bestMove_heuristic_of_horizon`: where unfinished positions have moves, the game goes on there, and
  what a heuristic says of them does not matter.
-/

namespace TreeSearch

variable {σ μ : Type}

namespace Search

open Counted (SameUnless)

/-! ### Searching deeper -/

/-- From `s` on, the two searches have the same rules and settings, and they give the same scores where the game cannot
go on, however deep a search looks. -/
structure AgreeAtEnds (e e' : Search σ μ) (s : σ) : Prop where
  game_eq : e'.game = e.game
  config_eq : e'.config = e.config
  score_eq : ∀ t, e.game.Reaches s t → e.game.terminal t = true ∨ e.game.moves t = [] → e'.score t = e.score t

theorem AgreeAtEnds.refl (e : Search σ μ) (s : σ) : e.AgreeAtEnds e s := ⟨rfl, rfl, fun _ _ _ => rfl⟩

section

variable {e e' : Search σ μ} {s : σ}

private theorem AgreeAtEnds.of_mem_children (h : e.AgreeAtEnds e' s) {t : σ} (ht : t ∈ e.game.children s) :
    e.AgreeAtEnds e' t :=
  ⟨h.game_eq, h.config_eq, fun u hu => h.score_eq u ((Game.Reaches.of_mem_children ht).trans hu)⟩

private theorem AgreeAtEnds.score_eq_of_leaf (h : e.AgreeAtEnds e' s)
    (hs : (e.game.terminal s || (e.game.moves s).isEmpty) = true) : e'.score s = e.score s := by
  rw [Bool.or_eq_true, List.isEmpty_iff] at hs
  exact h.score_eq s (.refl _ s) hs

/-- At a position that has not ended, the visits of a move are the same if the searches below are. -/
private theorem AgreeAtEnds.visit_sameUnless (h : e.AgreeAtEnds e' s)
    (hs : ¬(e.game.terminal s || (e.game.moves s).isEmpty) = true) {m : μ} (hm : m ∈ e.game.moves s)
    {search search' : σ → Counted Float}
    (hsearch : ∀ t, e.AgreeAtEnds e' t → SameUnless .horizon (search' t) (search t)) :
    SameUnless .horizon (e'.play s m >>= search') (e.play s m >>= search) := by
  have hplay : e'.play s m = e.play s m := by rw [play, play, h.game_eq]
  have hterm : e.game.terminal s = false := by simp_all
  rw [hplay]
  refine (SameUnless.refl _).bind fun t ht => ?_
  exact hsearch t (h.of_mem_children (Game.mem_children.mpr ⟨hterm, m, hm, ht⟩))

/-- A search that is at least as deep does the same, unless the other one has reached the horizon. -/
theorem AgreeAtEnds.value_sameUnless (h : e.AgreeAtEnds e' s) {depth depth' : Nat} (hd : depth ≤ depth') (w : Window) :
    SameUnless .horizon (e'.value depth' s w) (e.value depth s w) := by
  induction depth generalizing depth' s w with
  | zero =>
    cases hs : e.game.terminal s with
    | true =>
      -- a finished position is scored at every depth
      have hscore := h.score_eq s (.refl _ s) (Or.inl hs)
      cases depth'
      all_goals
        simp only [value, h.game_eq, hs, Bool.true_or, if_true, hscore]
        exact .refl _
    | false =>
      refine Counted.sameUnless_of_shows ?_ _
      simp only [value, hs]
      rfl
  | succ depth ih =>
    obtain ⟨k, rfl⟩ := Nat.exists_eq_add_of_le' hd
    show SameUnless .horizon (e'.value (k + depth + 1) s w) _
    simp only [value, h.game_eq, h.config_eq]
    refine (SameUnless.refl _).bind fun _ _ => ?_
    split
    · rename_i hs
      rw [h.score_eq_of_leaf hs]
      exact .refl _
    · rename_i hs
      refine scan_sameUnless (Or.inl rfl) _ (fun m hm w => ?_) _ _
      exact h.visit_sameUnless hs hm fun t ht => ih ht (Nat.le_add_left depth k) w

/-- The same at the root. -/
theorem AgreeAtEnds.choose_sameUnless (h : e.AgreeAtEnds e' s) {depth depth' : Nat} (hd : depth ≤ depth') :
    SameUnless .horizon (e'.choose s depth') (e.choose s depth) := by
  cases depth with
  | zero =>
    cases hs : e.game.terminal s with
    | true =>
      have hscore := h.score_eq s (.refl _ s) (Or.inl hs)
      cases depth'
      all_goals
        simp only [choose, h.game_eq, hs, Bool.true_or, if_true, hscore]
        exact .refl _
    | false =>
      refine Counted.sameUnless_of_shows ?_ _
      simp only [choose, hs]
      rfl
  | succ depth =>
    obtain ⟨k, rfl⟩ := Nat.exists_eq_add_of_le' hd
    show SameUnless .horizon (e'.choose s (k + depth + 1)) _
    simp only [choose, h.game_eq, h.config_eq]
    split
    · rename_i hs
      rw [h.score_eq_of_leaf hs]
      exact .refl _
    · rename_i hs
      refine pick_sameUnless (Or.inl rfl) _ (fun m hm w => ?_) _ _
      exact h.visit_sameUnless hs hm fun t ht => ht.value_sameUnless (Nat.le_add_left depth k) w

end

end Search

namespace Engine

/-- A search that has not scored an unfinished position for want of depth finds at every greater depth the same move
and the same value, with the same tally. -/
theorem bestMove_of_horizon {e : Engine σ μ} {s : σ} {depth depth' : Nat}
    (h : (e.bestMove s depth).2.tally.horizon = false) (hd : depth ≤ depth') :
    e.bestMove s depth' = e.bestMove s depth := by
  unfold bestMove at h ⊢
  split at h
  · rfl
  · have hagree := Search.AgreeAtEnds.refl e.toSearch s
    rw [hagree.choose_sameUnless hd h]

/-- Three free cells: the three moves that are left are all that a search ever looks at. -/
theorem bestMove_of_horizon_threeFree :
    (TicTacToe.engine.bestMove .threeFree 3).2.tally.horizon = false ∧
      TicTacToe.engine.bestMove .threeFree 81 = TicTacToe.engine.bestMove .threeFree 3 :=
  have hflag : (TicTacToe.engine.bestMove .threeFree 3).2.tally.horizon = false := rfl
  ⟨hflag, bestMove_of_horizon hflag (by decide)⟩

/-! ### Other scores of unfinished positions -/

/-- Two ways to score positions that differ at most on unfinished ones do not differ where the game cannot go on. -/
private theorem agreeAtEnds_withEvaluator {e : Engine σ μ} {s : σ}
    (hmoves : ∀ t, e.game.Reaches s t → e.game.terminal t = false → e.game.moves t ≠ []) {E E' : Evaluator σ}
    (hE : ∀ t, e.game.terminal t = true → E' t e.config.winScore = E t e.config.winScore) :
    (e.withEvaluator E).AgreeAtEnds (e.withEvaluator E').toSearch s where
  game_eq := rfl
  config_eq := rfl
  score_eq t ht hend := by
    refine hE t ?_
    rcases hend with hterm | hnil
    · exact hterm
    · rw [← Bool.not_eq_false]
      exact fun hterm => hmoves t ht hterm hnil

/-- The search for the best move does the same, unless the other one has reached the horizon. -/
private theorem bestMove_of_agreeAtEnds {e : Engine σ μ} {E E' : Evaluator σ} {s : σ} {depth : Nat}
    (hagree : (e.withEvaluator E).AgreeAtEnds (e.withEvaluator E').toSearch s)
    (h : ((e.withEvaluator E).bestMove s depth).2.tally.horizon = false) :
    ((e.withEvaluator E').bestMove s depth).1 = ((e.withEvaluator E).bestMove s depth).1 ∧
      ((e.withEvaluator E').bestMove s depth).2.tally = ((e.withEvaluator E).bestMove s depth).2.tally := by
  have hcheck : (e.withEvaluator E').config.check = (e.withEvaluator E).config.check := rfl
  unfold bestMove at h ⊢
  rw [hcheck]
  split at h
  · exact ⟨rfl, rfl⟩
  · have hrun := hagree.choose_sameUnless (Nat.le_refl depth) h
    exact ⟨congrArg Counted.result hrun, congrArg Counted.tally hrun⟩

/-- Where every unfinished position has a move, a search that has not scored an unfinished position for want of depth
owes nothing to its heuristic: with any other one, and with scores by the winner alone, it finds the same move and the
same value, with the same tally. -/
theorem bestMove_heuristic_of_horizon {e : Engine σ μ} {s : σ} {depth : Nat} {h₁ : σ → Float}
    (hmoves : ∀ t, e.game.Reaches s t → e.game.terminal t = false → e.game.moves t ≠ [])
    (h : ((e.withEvaluator (e.game.heuristic h₁)).bestMove s depth).2.tally.horizon = false) :
    let run := fun E : Evaluator σ => (e.withEvaluator E).bestMove s depth
    (∀ h₂ : σ → Float, (run (e.game.heuristic h₂)).1 = (run (e.game.heuristic h₁)).1 ∧
      (run (e.game.heuristic h₂)).2.tally = (run (e.game.heuristic h₁)).2.tally) ∧
    (run e.game.terminalScore).1 = (run (e.game.heuristic h₁)).1 ∧
      (run e.game.terminalScore).2.tally = (run (e.game.heuristic h₁)).2.tally := by
  constructor
  · intro h₂
    refine bestMove_of_agreeAtEnds (agreeAtEnds_withEvaluator hmoves fun t ht => ?_) h
    rw [Game.heuristic_of_terminal ht, Game.heuristic_of_terminal ht]
  · refine bestMove_of_agreeAtEnds (agreeAtEnds_withEvaluator hmoves fun t ht => ?_) h
    rw [Game.heuristic_of_terminal ht]

/-- Three free cells, searched to the end: it does not matter that one heuristic counts the marks and another one takes
every unfinished position for a win. -/
theorem bestMove_heuristic_of_horizon_threeFree :
    let count : TicTacToe.Position → Float := fun p => Float.ofNat p.played
    let run := fun E => (TicTacToe.engine.withEvaluator E).bestMove .threeFree 3
    (run (TicTacToe.game.heuristic count)).2.tally.horizon = false ∧
      (run (TicTacToe.game.heuristic fun _ => infinity)).1 = (run (TicTacToe.game.heuristic count)).1 ∧
      (run (TicTacToe.game.heuristic fun _ => infinity)).2.tally = (run (TicTacToe.game.heuristic count)).2.tally ∧
      (run TicTacToe.game.terminalScore).1 = (run (TicTacToe.game.heuristic count)).1 ∧
      (run TicTacToe.game.terminalScore).2.tally = (run (TicTacToe.game.heuristic count)).2.tally := by
  intro count run
  have hflag : (run (TicTacToe.game.heuristic count)).2.tally.horizon = false := by decide +kernel
  have hmoves := (TicTacToe.honest .threeFree).moves_ne
  obtain ⟨hheuristic, hwinner⟩ := bestMove_heuristic_of_horizon (e := TicTacToe.engine) hmoves hflag
  exact ⟨hflag, (hheuristic _).1, (hheuristic _).2, hwinner⟩

end Engine

end TreeSearch
