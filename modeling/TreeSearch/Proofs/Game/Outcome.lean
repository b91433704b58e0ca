import TreeSearch.Game.Config
import TreeSearch.Game.Evaluator
import TreeSearch.Proofs.Game.Order

/-!
# Scores by the winner

Where positions are scored by their winner, a search meets five scores only: what a win is worth, its negation, zero,
and the two that the sides start from.  They form a `ladder`, and what a win is worth does not change their order.

* `Game.lead` is the rung of a finished position: the sign of the winner, or zero.
* (order) `rank_ladder_lt_iff`: a higher rung is a higher score.
* (two worths) `sameOrder_ladder`: so the ladders for two worths of a win are ordered alike.
-/

namespace TreeSearch

variable {σ μ : Type}

namespace Score

/-- A finite and positive score. -/
def Worth (w : Float) : Prop := w.isFinite = true ∧ 0 < w

private theorem Worth.rank_pos {w : Float} (hw : Worth w) : w.isNaN = false ∧ 0 < rank w ∧ rank w < top := by
  obtain ⟨hn, -, htop⟩ := isFinite_iff.mp hw.1
  obtain ⟨-, -, hpos⟩ := lt_iff.mp hw.2
  rw [rank_zero] at hpos
  exact ⟨hn, hpos, htop⟩

/-- The scores from `-infinity` at rung `-2` to `infinity` at rung `2`, with wins worth `w` in between. -/
def ladder (w : Float) (l : Int) : Float :=
  if l = -2 then -infinity else if l = -1 then -w else if l = 0 then 0 else if l = 1 then w else infinity

private theorem isNaN_ladder {w : Float} (hw : Worth w) (l : Int) : (ladder w l).isNaN = false := by
  obtain ⟨hn, -, -⟩ := hw.rank_pos
  unfold ladder
  repeat' split
  all_goals simp only [isNaN_neg, isNaN_infinity, isNaN_zero, hn]

theorem rank_ladder_lt_iff {w : Float} (hw : Worth w) {k l : Int} (hk : -2 ≤ k ∧ k ≤ 2) (hl : -2 ≤ l ∧ l ≤ 2) :
    rank (ladder w k) < rank (ladder w l) ↔ k < l := by
  obtain ⟨-, hpos, htop⟩ := hw.rank_pos
  have hrank : ∀ i : Int, rank (ladder w i) =
      if i = -2 then -top else if i = -1 then -rank w else if i = 0 then 0 else if i = 1 then rank w else top := by
    intro i
    simp only [ladder, apply_ite rank, rank_neg, rank_infinity, rank_zero]
  rw [hrank, hrank]
  obtain rfl | rfl | rfl | rfl | rfl : k = -2 ∨ k = -1 ∨ k = 0 ∨ k = 1 ∨ k = 2 := by omega
  all_goals
    obtain rfl | rfl | rfl | rfl | rfl : l = -2 ∨ l = -1 ∨ l = 0 ∨ l = 1 ∨ l = 2 := by omega
    all_goals simp only [Int.reduceEq, if_true, if_false] <;> omega

/-- The same rung of the ladders for two worths of a win. -/
def SameRung (w w' v v' : Float) : Prop := ∃ l : Int, (-2 ≤ l ∧ l ≤ 2) ∧ v = ladder w l ∧ v' = ladder w' l

theorem sameOrder_ladder {w w' : Float} (hw : Worth w) (hw' : Worth w') : SameOrder (SameRung w w') where
  prefers_eq := by
    rintro _ _ _ _ ⟨k, hk, rfl, rfl⟩ ⟨l, hl, rfl, rfl⟩ side
    rw [Bool.eq_iff_iff, Side.prefers_iff, Side.prefers_iff]
    simp only [isNaN_ladder hw, isNaN_ladder hw', true_and]
    cases side <;> simp only [Side.rank, Int.neg_lt_neg_iff]
    · rw [rank_ladder_lt_iff hw hl hk, rank_ladder_lt_iff hw' hl hk]
    · rw [rank_ladder_lt_iff hw hk hl, rank_ladder_lt_iff hw' hk hl]
  worst side := by
    cases side
    · exact ⟨-2, by omega, rfl, rfl⟩
    · exact ⟨2, by omega, rfl, rfl⟩

end Score

theorem Config.worth_of_check {c : Config} (h : c.check = .ok ()) : Score.Worth c.winScore := by
  unfold check at h
  split at h
  · rename_i hw
    simpa [Score.Worth] using hw
  · cases h

namespace Game

/-- Who is ahead: the sign of the winner, or zero. -/
def lead (g : Game σ μ) (s : σ) : Int :=
  match g.winner s with
  | some side => side.sign
  | none => 0

theorem lead_bounds (g : Game σ μ) (s : σ) : -1 ≤ g.lead s ∧ g.lead s ≤ 1 := by
  unfold lead
  split
  · rename_i side _
    cases side <;> decide
  · decide

/-- The score of a position by its winner is a rung of the ladder. -/
theorem terminalScore_eq_ladder (g : Game σ μ) (s : σ) (w : Float) :
    g.terminalScore s w = Score.ladder w (g.lead s) := by
  unfold terminalScore lead
  split <;> rename_i h <;> rw [h] <;> rfl

/-- The winner puts a position on the same rung, whatever a win is worth. -/
theorem sameRung_terminalScore (g : Game σ μ) (s : σ) (w w' : Float) :
    Score.SameRung w w' (g.terminalScore s w) (g.terminalScore s w') := by
  have hb := g.lead_bounds s
  rw [terminalScore_eq_ladder, terminalScore_eq_ladder]
  exact ⟨g.lead s, by omega, rfl, rfl⟩

theorem isFinite_terminalScore (g : Game σ μ) (s : σ) {w : Float} (hw : Score.Worth w) :
    (g.terminalScore s w).isFinite = true := by
  have hb := g.lead_bounds s
  have hlow := (Score.rank_ladder_lt_iff hw (k := -2) (l := g.lead s) (by omega) (by omega)).mpr (by omega)
  have hhigh := (Score.rank_ladder_lt_iff hw (k := g.lead s) (l := 2) (by omega) (by omega)).mpr (by omega)
  rw [terminalScore_eq_ladder, Score.isFinite_iff]
  refine ⟨Score.isNaN_ladder hw _, ?_, ?_⟩
  · simpa [Score.ladder] using hlow
  · simpa [Score.ladder] using hhigh

end Game

end TreeSearch
