import TreeSearch.Proofs.Game.Census
import TreeSearch.Proofs.Game.Pruning

/-!
# The order of the moves

A game whose legal moves are listed in another order is the same game, except that another one of several equally good
moves comes first, and that pruning leaves other moves out.

* `Score.Equal v w`: the scores compare as equal, or neither of them is a number.
* (one position) `Side.best_perm`: the best scores of a list and of a rearranged list are equal, though they may be
  different zeros.
* (whole tree) `Search.minimax_reordered`: so are the values of a position, by induction on the depth.
* (counters) `Game.census_reordered`: there is as much to count.
* (root) `Engine.bestMove_reordered`: the searches find equal values, whichever of them prune, and count the same if
  neither does.
-/

namespace TreeSearch

variable {σ μ : Type}

/-! ### Equal scores -/

namespace Score

/-- The scores compare as equal, or neither is a number. -/
def Equal (v w : Float) : Prop := (v == w) = true ∨ v.isNaN = true ∧ w.isNaN = true

private theorem equal_of_rank {v w : Float} (hv : v.isNaN = false) (hw : w.isNaN = false) (h : rank v = rank w) :
    Equal v w :=
  Or.inl (beq_iff.mpr ⟨hv, hw, h⟩)

theorem Equal.refl (v : Float) : Equal v v := by
  cases hv : v.isNaN with
  | false => exact equal_of_rank hv hv rfl
  | true => exact Or.inr ⟨hv, hv⟩

theorem Equal.trans {u v w : Float} (h : Equal u v) (k : Equal v w) : Equal u w := by
  rcases h with h | ⟨hu, hv⟩
  · obtain ⟨hu, hv, huv⟩ := beq_iff.mp h
    rcases k with k | ⟨hv', -⟩
    · obtain ⟨-, hw, hvw⟩ := beq_iff.mp k
      exact equal_of_rank hu hw (huv.trans hvw)
    · rw [hv] at hv'
      cases hv'
  · rcases k with k | ⟨-, hw⟩
    · rw [(beq_iff.mp k).1] at hv
      cases hv
    · exact Or.inr ⟨hu, hw⟩

/-- Equal scores are ordered alike. -/
private theorem sameOrder_equal : SameOrder Equal where
  prefers_eq := by
    intro v v' w w' hv hw side
    rw [Bool.eq_iff_iff, Side.prefers_iff, Side.prefers_iff]
    rcases hv with hv | ⟨hv, hv'⟩
    · rcases hw with hw | ⟨hw, hw'⟩
      · obtain ⟨hvn, hvn', hvr⟩ := beq_iff.mp hv
        obtain ⟨hwn, hwn', hwr⟩ := beq_iff.mp hw
        cases side <;> simp only [Side.rank, hvn, hvn', hwn, hwn', hvr, hwr]
      · simp only [hw, hw', Bool.true_eq_false, false_and, and_false]
    · simp only [hv, hv', Bool.true_eq_false, false_and]
  worst side := Equal.refl side.worst

end Score

namespace Side

/-- The best score of more scores is at least as good. -/
private theorem rank_best_le (side : Side) {vs ws : List Float} (h : ∀ v ∈ vs, v ∈ ws) :
    side.rank (side.best vs) ≤ side.rank (side.best ws) := by
  have hbot := side.neg_top_le_rank (side.best ws)
  by_cases hworst : side.best vs = side.worst
  · rw [hworst, rank_worst]
    exact hbot
  · have hnot : side.prefers (side.best vs) (side.best ws) = false := not_prefers_best (h _ (best_mem hworst))
    exact (prefers_eq_false_iff (side.isNaN_best vs) (side.isNaN_best ws)).mp hnot

/-- Rearranging scores does not change the best one. -/
theorem best_perm (side : Side) {vs ws : List Float} (h : vs.Perm ws) :
    Score.Equal (side.best vs) (side.best ws) := by
  have hle := side.rank_best_le fun v hv => h.mem_iff.mp hv
  have hge := side.rank_best_le fun v hv => h.mem_iff.mpr hv
  refine Score.equal_of_rank (side.isNaN_best vs) (side.isNaN_best ws) ?_
  cases side <;> simp only [rank] at hle hge <;> omega

end Side

/-! ### Games with their moves rearranged -/

private theorem Tally.sum_perm {ts us : List Tally} (h : ts.Perm us) : ts.sum = us.sum := by
  induction h with
  | nil => rfl
  | cons t _ ih => rw [List.sum_cons, List.sum_cons, ih]
  | swap t u ts =>
    simp only [List.sum_cons]
    ext
    · simp only [add_nodes]; omega
    · simp only [add_cutoffs]; omega
    · simp only [add_horizon, Bool.or_left_comm]
  | trans _ _ ih ih' => exact ih.trans ih'

namespace Game

/-- The same game with its moves listed as `arrange` lists them. -/
def reordered (g : Game σ μ) (arrange : σ → List μ) : Game σ μ := { g with moves := arrange }

variable {g : Game σ μ} {arrange : σ → List μ} (harrange : ∀ s, (arrange s).Perm (g.moves s))

include harrange

private theorem children_reordered (s : σ) : ((g.reordered arrange).children s).Perm (g.children s) := by
  unfold children
  show List.Perm (if g.terminal s then [] else (arrange s).filterMap fun m => (g.step s m).toOption) _
  split
  · exact List.Perm.refl _
  · exact (harrange s).filterMap _

theorem sound_reordered {depth : Nat} {s : σ} (h : g.Sound depth s) : (g.reordered arrange).Sound depth s := by
  induction depth generalizing s with
  | zero => exact sound_zero _ s
  | succ depth ih =>
    cases hs : g.terminal s with
    | true => exact sound_of_terminal (g := g.reordered arrange) hs _
    | false =>
      rw [sound_succ hs] at h
      refine (sound_succ (g := g.reordered arrange) hs).mpr fun m hm => ?_
      obtain ⟨t, ht, hsound⟩ := h m ((harrange s).mem_iff.mp hm)
      exact ⟨t, ht, ih hsound⟩

/-- There is as much to count. -/
theorem census_reordered (depth : Nat) (s : σ) : (g.reordered arrange).census depth s = g.census depth s := by
  induction depth generalizing s with
  | zero => rfl
  | succ depth ih =>
    have hchildren := children_reordered harrange s
    have hmap : ((g.reordered arrange).children s).map ((g.reordered arrange).census depth) =
        ((g.reordered arrange).children s).map (g.census depth) := List.map_congr_left fun t _ => ih t
    rw [census, census, hmap]
    exact congrArg (Tally.node + ·) (Tally.sum_perm (hchildren.map _))

end Game

/-- The same search with the moves listed as `arrange` lists them. -/
def Search.reordered (e : Search σ μ) (arrange : σ → List μ) : Search σ μ :=
  { e with game := e.game.reordered arrange }

/-- The value of a position does not depend on the order of the moves. -/
theorem Search.minimax_reordered {e : Search σ μ} {arrange : σ → List μ}
    (harrange : ∀ s, (arrange s).Perm (e.game.moves s)) (depth : Nat) (s : σ) :
    Score.Equal (e.minimax depth s) ((e.reordered arrange).minimax depth s) := by
  induction depth generalizing s with
  | zero => exact Score.Equal.refl _
  | succ depth ih =>
    have hempty : (arrange s).isEmpty = (e.game.moves s).isEmpty := (harrange s).isEmpty_eq
    have hchildren := (Game.children_reordered harrange s).symm
    rw [minimax, minimax]
    show Score.Equal _ (if e.game.terminal s || (arrange s).isEmpty then e.score s else _)
    rw [hempty]
    split
    · exact Score.Equal.refl _
    · -- first the values below are exchanged for equal ones, then they are rearranged
      exact (Score.sameOrder_equal.best _ fun t _ => ih t).trans (Side.best_perm _ (hchildren.map _))

namespace Engine

/-- The same engine with the moves listed as `arrange` lists them. -/
def reordered (e : Engine σ μ) (arrange : σ → List μ) : Engine σ μ :=
  { e with toSearch := e.toSearch.reordered arrange }

/-- Whatever the order of the legal moves, and whether or not moves are pruned, the values found are equal.  Without
pruning the searches also visit as many positions, and reach the horizon together. -/
theorem bestMove_reordered {e : Engine σ μ} (hc : e.config.check = .ok ()) {arrange : σ → List μ}
    (harrange : ∀ s, (arrange s).Perm (e.game.moves s)) {s : σ} {depth : Nat} (hs : e.game.Sound depth s) :
    (∀ on on', ∃ r r', ((e.withPruning on).bestMove s depth).1 = .ok r ∧
        (((e.reordered arrange).withPruning on').bestMove s depth).1 = .ok r' ∧ Score.Equal r.2 r'.2) ∧
      let plain := ((e.withPruning false).bestMove s depth).2.tally
      let plain' := (((e.reordered arrange).withPruning false).bestMove s depth).2.tally
      plain.nodes = plain'.nodes ∧ plain.horizon = plain'.horizon := by
  have hs' : (e.reordered arrange).game.Sound depth s := Game.sound_reordered harrange hs
  have hanswer := bestMove_withPruning_of_sound hc hs
  have hanswer' := bestMove_withPruning_of_sound (e := e.reordered arrange) hc hs'
  constructor
  · intro on on'
    exact ⟨_, _, hanswer on, hanswer' on', Search.minimax_reordered harrange depth s⟩
  · -- without pruning both count all there is
    have hcensus : (e.reordered arrange).game.census depth s = e.game.census depth s :=
      Game.census_reordered harrange depth s
    have htally := tally_bestMove_exhaustive (hanswer false)
    have htally' := tally_bestMove_exhaustive (hanswer' false)
    rw [hcensus, ← htally] at htally'
    have hnodes := congrArg Tally.nodes htally'
    have hhorizon := congrArg Tally.horizon htally'
    simp only [Tally.add_nodes, Tally.add_horizon] at hnodes hhorizon
    exact ⟨Nat.add_left_cancel hnodes.symm, hhorizon.symm⟩

/-- The cells in descending order. -/
def backwards (p : TicTacToe.Position) : List Nat := p.moves.reverse

/-- Three free cells, tried from the first one or from the last one: with pruning either search finds a draw, though
not by the same move, and without pruning either one visits fifteen positions. -/
theorem bestMove_reordered_threeFree :
    let forth := (TicTacToe.engine.withPruning true).bestMove .threeFree 3
    let back := ((TicTacToe.engine.reordered backwards).withPruning true).bestMove .threeFree 3
    let back' := ((TicTacToe.engine.reordered backwards).withPruning false).bestMove .threeFree 3
    TicTacToe.engine.config.check = .ok () ∧ (∀ p, (backwards p).Perm (TicTacToe.game.moves p)) ∧
      TicTacToe.game.Sound 3 .threeFree ∧ forth.1 = .ok (some 4, 0) ∧
      (∃ r, back.1 = .ok r ∧ r.1 = some 6 ∧ Score.Equal 0 r.2) ∧ back'.2.tally.nodes = 15 := by
  intro forth back back'
  have hcheck : TicTacToe.engine.config.check = .ok () := rfl
  have hperm : ∀ p, (backwards p).Perm (TicTacToe.game.moves p) := fun p => List.reverse_perm p.moves
  have hsound : TicTacToe.game.Sound 3 .threeFree := (TicTacToe.honest .threeFree).sound 3
  have hforth : forth.1 = .ok (some 4, 0) := rfl
  have hback : back.1.toOption.map Prod.fst = some (some 6) := by decide +kernel
  have hcount : ((TicTacToe.engine.withPruning false).bestMove .threeFree 3).2.tally.nodes = 15 := by decide +kernel
  obtain ⟨hvalues, hnodes, -⟩ := bestMove_reordered hcheck hperm hsound
  obtain ⟨r, r', hr, hr', hequal⟩ := hvalues true true
  obtain rfl : r = (some 4, 0) := Except.ok.inj (hr.symm.trans hforth)
  rw [show back.1 = .ok r' from hr'] at hback
  exact ⟨hcheck, hperm, hsound, hforth, ⟨r', hr', Option.some.inj hback, hequal⟩, hnodes.symm.trans hcount⟩

end Engine

end TreeSearch
