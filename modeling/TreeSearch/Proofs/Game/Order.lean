import TreeSearch.Proofs.Game.Best

/-!
# Only the order of the scores counts

Two searches of one game whose scores are ordered alike find values that are ordered alike.  `SameOrder R` says that
the pairs of scores related by `R` are ordered alike, seen from either side, and that the scores which the sides
start from are related.

* (one position) `SameOrder.best`: the best scores of two related lists are related.
* (whole tree) `SameOrder.minimax`: the values of a position in two related searches are related.
* (move) `SameOrder.optimal`: the first optimal moves are the same.
-/

namespace TreeSearch

variable {σ μ : Type}

structure SameOrder (R : Float → Float → Prop) : Prop where
  prefers_eq : ∀ {v v' w w'}, R v v' → R w w' → ∀ side : Side, side.prefers v w = side.prefers v' w'
  worst : ∀ side : Side, R side.worst side.worst

namespace SameOrder

variable {R : Float → Float → Prop}

theorem eq : SameOrder (fun v w => v = w) where
  prefers_eq := by rintro v _ w _ rfl rfl side; rfl
  worst _ := rfl

private theorem foldl_better (h : SameOrder R) (side : Side) {val val' : σ → Float} {ts : List σ}
    (hval : ∀ t ∈ ts, R (val t) (val' t)) {best best' : Float} (hbest : R best best') :
    R ((ts.map val).foldl side.better best) ((ts.map val').foldl side.better best') := by
  induction ts generalizing best best' with
  | nil => exact hbest
  | cons t ts ih =>
    have ht := hval t (List.mem_cons_self ..)
    refine ih (fun u hu => hval u (List.mem_cons_of_mem _ hu)) ?_
    unfold Side.better
    rw [h.prefers_eq ht hbest]
    split
    · exact ht
    · exact hbest

theorem best (h : SameOrder R) (side : Side) {val val' : σ → Float} {ts : List σ}
    (hval : ∀ t ∈ ts, R (val t) (val' t)) : R (side.best (ts.map val)) (side.best (ts.map val')) := by
  rw [Side.best_eq_foldl, Side.best_eq_foldl]
  exact h.foldl_better side hval (h.worst side)

theorem minimax (h : SameOrder R) {e e' : Search σ μ} (hg : e.game = e'.game) (hs : ∀ s, R (e.score s) (e'.score s))
    (depth : Nat) (s : σ) : R (e.minimax depth s) (e'.minimax depth s) := by
  induction depth generalizing s with
  | zero => exact hs s
  | succ depth ih =>
    unfold Search.minimax
    rw [hg]
    split
    · exact hs s
    · exact h.best _ fun t _ => ih t

private theorem valueAfter (h : SameOrder R) {e e' : Search σ μ} (hg : e.game = e'.game)
    (hs : ∀ s, R (e.score s) (e'.score s)) (depth : Nat) (s : σ) (m : μ) :
    R (e.valueAfter depth s m) (e'.valueAfter depth s m) := by
  unfold Search.valueAfter
  rw [hg]
  split
  · exact h.minimax hg hs depth _
  · exact h.worst _

/-- A number is the best score of a list iff neither of the two is better. -/
private theorem beq_best_iff {side : Side} {vs : List Float} {v : Float} (hv : v.isNaN = false) :
    (v == side.best vs) = true ↔ side.prefers v (side.best vs) = false ∧ side.prefers (side.best vs) v = false := by
  have hb := side.isNaN_best vs
  rw [Side.prefers_eq_false_iff hv hb, Side.prefers_eq_false_iff hb hv, Score.beq_iff]
  cases side <;> simp only [hv, hb, true_and, Side.rank] <;> omega

theorem optimal (h : SameOrder R) {e e' : Search σ μ} (hg : e.game = e'.game) (hs : ∀ s, R (e.score s) (e'.score s))
    (depth : Nat) (s : σ) : e.optimal depth s = e'.optimal depth s := by
  cases depth with
  | zero => rfl
  | succ depth =>
    rw [Search.optimal, Search.optimal, hg]
    split
    · rfl
    rename_i hterm
    by_cases hmoves : e'.game.moves s = []
    · rw [hmoves]; rfl
    have hleaf : ¬(e'.game.terminal s || (e'.game.moves s).isEmpty) = true := by simp [hterm, hmoves]
    have hR := h.minimax hg hs (depth + 1) s
    rw [Search.minimax, Search.minimax, hg, if_neg hleaf, if_neg hleaf] at hR ⊢
    refine congrArg (fun p => (e'.game.moves s).find? p) (funext fun m => ?_)
    have hm := h.valueAfter hg hs depth s m
    have hworst := h.worst (e'.game.turn s)
    rw [h.prefers_eq hm hworst]
    -- a move that is no better than the worst score is not asked for more
    cases hp' : (e'.game.turn s).prefers (e'.valueAfter depth s m) (e'.game.turn s).worst with
    | false => simp
    | true =>
      have hp := (h.prefers_eq hm hworst _).trans hp'
      rw [Bool.and_true, Bool.and_true, Bool.eq_iff_iff, beq_best_iff (Side.prefers_iff.mp hp).1,
        beq_best_iff (Side.prefers_iff.mp hp').1, h.prefers_eq hm hR, h.prefers_eq hR hm]

end SameOrder

end TreeSearch
