import TreeSearch.Proofs.Game.Census
import TreeSearch.Proofs.Game.Unless

/-!
# What pruning saves

Pruning leaves moves out and does nothing else: a search with pruning that never cuts anything off is the search without
pruning, and no other one visits more positions.

* (no cut-off) `value_sameUnless_cut`, `choose_sameUnless_cut`: unless something was cut off, the search without pruning
  is the same computation, whether it ends with an answer or with an error.
* (counters) `Engine.bestMove_withPruning_saves`: positions, horizon and cut-offs of the two searches compared.
-/

namespace TreeSearch

variable {σ μ : Type}

namespace Engine

open Counted (SameUnless)

/-- Unless something was cut off, the search without pruning does the same. -/
theorem value_sameUnless_cut (e : Engine σ μ) (depth : Nat) (s : σ) (w : Window) :
    SameUnless .cut ((e.withPruning false).value depth s w) ((e.withPruning true).value depth s w) := by
  induction depth generalizing s w with
  | zero => exact .refl _
  | succ depth ih =>
    cases hleaf : e.game.terminal s || (e.game.moves s).isEmpty with
    | true =>
      simp only [Search.value, game_withPruning, score_withPruning, hleaf, if_true]
      exact .refl _
    | false =>
      simp only [Search.value, game_withPruning, score_withPruning, pruning_withPruning, hleaf, Bool.false_eq_true,
        if_false]
      refine (SameUnless.refl _).bind fun _ _ => ?_
      refine Search.scan_sameUnless (Or.inr ⟨rfl, rfl⟩) _ (fun m _ w => ?_) _ _
      exact (SameUnless.refl (e.play s m)).bind fun t _ => ih t w

/-- The same at the root. -/
theorem choose_sameUnless_cut (e : Engine σ μ) (s : σ) (depth : Nat) :
    SameUnless .cut ((e.withPruning false).choose s depth) ((e.withPruning true).choose s depth) := by
  cases depth with
  | zero => exact .refl _
  | succ depth =>
    cases hleaf : e.game.terminal s || (e.game.moves s).isEmpty with
    | true =>
      simp only [Search.choose, game_withPruning, score_withPruning, hleaf, if_true]
      exact .refl _
    | false =>
      simp only [Search.choose, game_withPruning, score_withPruning, pruning_withPruning, hleaf, Bool.false_eq_true,
        if_false]
      refine Search.pick_sameUnless (Or.inr ⟨rfl, rfl⟩) _ (fun m _ w => ?_) _ _
      exact (SameUnless.refl (e.play s m)).bind fun t _ => e.value_sameUnless_cut depth t w

/-- Where the search without pruning ends with an answer, the search with pruning visits no more positions, and it
reaches the horizon only if the other one does.  The search without pruning never cuts anything off, and if the search
with pruning does not do so either, then the two end alike and count the same. -/
theorem bestMove_withPruning_saves {e : Engine σ μ} (hc : e.config.check = .ok ()) (s : σ) (depth : Nat) :
    let plain := (e.withPruning false).bestMove s depth
    let pruned := (e.withPruning true).bestMove s depth
    (∀ r, plain.1 = .ok r → pruned.2.tally.nodes ≤ plain.2.tally.nodes ∧
        (pruned.2.tally.horizon = true → plain.2.tally.horizon = true)) ∧
      plain.2.tally.cutoffs = 0 ∧
      (pruned.2.tally.cutoffs = 0 → plain.1 = pruned.1 ∧ plain.2.tally = pruned.2.tally) := by
  intro plain pruned
  have hoff : (e.withPruning false).config.check = .ok () := hc
  have hon : (e.withPruning true).config.check = .ok () := hc
  have hpruned : (.node + pruned.2.tally : Tally).Within true (e.game.census depth s) := bestMove_within hon s depth
  have hplain : (.node + plain.2.tally : Tally).Within false (e.game.census depth s) := bestMove_within hoff s depth
  refine ⟨fun r hr => ?_, ?_, fun hcut => ?_⟩
  · -- what the search without pruning counts is all there is, up to the root
    have hcensus : .node + plain.2.tally = e.game.census depth s := tally_bestMove_exhaustive hr
    rw [← hcensus] at hpruned
    exact ⟨Nat.le_of_add_le_add_left hpruned.nodes_le, hpruned.horizon_imp⟩
  · exact Nat.eq_zero_of_add_eq_zero_left (hplain.cutoffs_eq rfl)
  · rw [tally_bestMove_of_check hon, ← Tally.Mark.cut_eq_false_iff] at hcut
    have hsame := e.choose_sameUnless_cut s depth hcut
    rw [bestMove_of_check hoff, bestMove_of_check hon, tally_bestMove_of_check hoff, tally_bestMove_of_check hon, hsame]
    exact ⟨rfl, rfl⟩

/-- Three free cells: pruning saves four of fifteen positions at depth three, and nothing at depth one, where the
searches are the same. -/
theorem bestMove_withPruning_saves_threeFree :
    let plain := (TicTacToe.engine.withPruning false).bestMove .threeFree
    let pruned := (TicTacToe.engine.withPruning true).bestMove .threeFree
    TicTacToe.engine.config.check = .ok () ∧ (plain 3).1 = .ok (some 4, 0) ∧
      (pruned 3).2.tally.nodes + 4 = (plain 3).2.tally.nodes ∧
      (pruned 3).2.tally.nodes ≤ (plain 3).2.tally.nodes ∧ (plain 3).2.tally.cutoffs = 0 ∧
      (pruned 1).2.tally.cutoffs = 0 ∧ (plain 1).1 = (pruned 1).1 ∧ (plain 1).2.tally = (pruned 1).2.tally := by
  intro plain pruned
  have hcheck : TicTacToe.engine.config.check = .ok () := rfl
  have hanswer : (plain 3).1 = .ok (some 4, 0) := rfl
  have hsaved : (pruned 3).2.tally.nodes + 4 = (plain 3).2.tally.nodes := by decide +kernel
  have huncut : (pruned 1).2.tally.cutoffs = 0 := by decide +kernel
  obtain ⟨hcount, hzero, -⟩ := bestMove_withPruning_saves hcheck .threeFree 3
  obtain ⟨-, -, hsame⟩ := bestMove_withPruning_saves hcheck .threeFree 1
  exact ⟨hcheck, hanswer, hsaved, (hcount _ hanswer).1, hzero, huncut, hsame huncut⟩

end Engine

end TreeSearch
