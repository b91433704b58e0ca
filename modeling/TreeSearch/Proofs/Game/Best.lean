import TreeSearch.Game.Value
import TreeSearch.Proofs.Score

/-!
# The best of several scores

A side that goes through scores one by one and keeps a strictly better one ends with the best score of the list,
and with the first entry that has it.

* `Side.rank` is the rank of a score as the side sees it, so that both sides want a high rank.
* (first of the best) `Side.foldl_keep`: either nothing in the list is better than what the side held at the
  beginning, or the list splits at the entry that it ends with: worse ones before, no better ones after.
* (running best) `Side.best_eq_foldl`: the best score of a list is what a side ends with when it starts from the
  worst one.  Only here it matters that no score but an infinity is as bad as the worst one.
-/

namespace TreeSearch.Side

variable {μ : Type}

/-! ### Ranks seen from a side -/

/-- The rank of a score for a side; a higher one is better. -/
def rank : Side → Float → Int
  | plus, v => Score.rank v
  | minus, v => -Score.rank v

theorem prefers_iff {side : Side} {v w : Float} :
    side.prefers v w = true ↔ v.isNaN = false ∧ w.isNaN = false ∧ side.rank w < side.rank v := by
  cases side with
  | plus =>
    simp only [prefers, rank, decide_eq_true_eq, Score.lt_iff]
    exact ⟨fun ⟨hw, hv, h⟩ => ⟨hv, hw, h⟩, fun ⟨hv, hw, h⟩ => ⟨hw, hv, h⟩⟩
  | minus =>
    simp only [prefers, rank, decide_eq_true_eq, Score.lt_iff]
    exact and_congr_right fun _ => and_congr_right fun _ => by omega

theorem prefers_eq_false_iff {side : Side} {v w : Float} (hv : v.isNaN = false) (hw : w.isNaN = false) :
    side.prefers v w = false ↔ side.rank v ≤ side.rank w := by
  rw [Bool.eq_false_iff, ne_eq, prefers_iff]
  simp only [hv, hw, true_and]
  omega

theorem prefers_of_isNaN {side : Side} {v : Float} (h : v.isNaN = true) (w : Float) :
    side.prefers v w = false := by
  rw [Bool.eq_false_iff, ne_eq, prefers_iff]
  rintro ⟨hv, -, -⟩
  rw [h] at hv
  cases hv

private theorem prefers_trans {side : Side} {u v w : Float} (h : side.prefers u v = true)
    (k : side.prefers v w = true) : side.prefers u w = true := by
  rw [prefers_iff] at *
  exact ⟨h.1, k.2.1, by omega⟩

private theorem rank_le_top (side : Side) (v : Float) : side.rank v ≤ Score.top := by
  have h := Score.neg_top_le_rank v
  cases side
  · exact Score.rank_le_top v
  · simp only [rank]; omega

theorem neg_top_le_rank (side : Side) (v : Float) : -Score.top ≤ side.rank v := by
  have h := Score.rank_le_top v
  cases side
  · exact Score.neg_top_le_rank v
  · simp only [rank]; omega

@[simp] theorem isNaN_worst (side : Side) : side.worst.isNaN = false := by
  cases side
  · exact Score.isNaN_neg_infinity
  · exact Score.isNaN_infinity

@[simp] theorem rank_worst (side : Side) : side.rank side.worst = -Score.top := by
  cases side <;> simp [rank, worst]

theorem eq_worst_of_rank {side : Side} {v : Float} (h : side.rank v ≤ -Score.top) : v = side.worst := by
  cases side
  · exact Score.eq_neg_infinity_of_rank h
  · exact Score.eq_infinity_of_rank (by simp only [rank] at h; omega)

/-- The score that nothing beats is the worst one of the opponent. -/
theorem eq_worst_opponent_of_rank {side : Side} {v : Float} (h : Score.top ≤ side.rank v) :
    v = side.opponent.worst := by
  cases side
  · exact Score.eq_infinity_of_rank h
  · exact Score.eq_neg_infinity_of_rank (by simp only [rank] at h; omega)

theorem prefers_worst_of_isFinite {v : Float} (h : v.isFinite = true) (side : Side) :
    side.prefers v side.worst = true := by
  obtain ⟨hn, hlow, hhigh⟩ := Score.isFinite_iff.mp h
  rw [prefers_iff, rank_worst]
  refine ⟨hn, side.isNaN_worst, ?_⟩
  cases side <;> simp only [rank] <;> omega

theorem ne_worst_of_isFinite {v : Float} (h : v.isFinite = true) (side : Side) : v ≠ side.worst := by
  intro hv
  have hp := prefers_worst_of_isFinite h side
  rw [hv, prefers_iff] at hp
  omega

/-! ### Going through a list -/

/-- Keeps the entry of a strictly better score, with its score. -/
def keep (side : Side) (val : μ → Float) (best : Option μ × Float) (m : μ) : Option μ × Float :=
  if side.prefers (val m) best.2 then (some m, val m) else best

theorem keep_snd (side : Side) (val : μ → Float) (best : Option μ × Float) (m : μ) :
    (side.keep val best m).2 = side.better best.2 (val m) := by
  unfold keep better
  split <;> rfl

theorem foldl_keep_snd (side : Side) (val : μ → Float) (ms : List μ) (best : Option μ × Float) :
    (ms.foldl (side.keep val) best).2 = (ms.map val).foldl side.better best.2 := by
  induction ms generalizing best with
  | nil => rfl
  | cons m ms ih => rw [List.foldl_cons, ih, keep_snd]; rfl

theorem isNaN_better {side : Side} {best : Float} (h : best.isNaN = false) (v : Float) :
    (side.better best v).isNaN = false := by
  unfold better
  split
  · rename_i hp; exact (prefers_iff.mp hp).1
  · exact h

/-- An entry that the side takes is better than all before it, and nothing after it is better. -/
theorem foldl_keep (side : Side) (val : μ → Float) (ms : List μ) (best : Option μ × Float)
    (hb : best.2.isNaN = false) :
    (ms.foldl (side.keep val) best = best ∧ ∀ m ∈ ms, side.prefers (val m) best.2 = false) ∨
    ∃ before m after, ms = before ++ m :: after ∧ ms.foldl (side.keep val) best = (some m, val m) ∧
      side.prefers (val m) best.2 = true ∧
      (∀ u ∈ before, (val u).isNaN = true ∨ side.prefers (val m) (val u) = true) ∧
      ∀ u ∈ after, side.prefers (val u) (val m) = false := by
  induction ms generalizing best with
  | nil => exact Or.inl ⟨rfl, by simp⟩
  | cons x ms ih =>
    rw [List.foldl_cons]
    by_cases hx : side.prefers (val x) best.2 = true
    · -- the first entry is taken, and either it stays or a better one comes later
      have hxn := (prefers_iff.mp hx).1
      have hk : side.keep val best x = (some x, val x) := by simp [keep, hx]
      rw [hk]
      rcases ih (some x, val x) hxn with ⟨hf, hall⟩ | ⟨before, m, after, rfl, hf, hm, hbef, haft⟩
      · exact Or.inr ⟨[], x, ms, rfl, hf, hx, by simp, hall⟩
      · refine Or.inr ⟨x :: before, m, after, rfl, hf, prefers_trans hm hx, ?_, haft⟩
        intro u hu
        rcases List.mem_cons.mp hu with rfl | hu
        · exact Or.inr hm
        · exact hbef u hu
    · rw [Bool.not_eq_true] at hx
      have hk : side.keep val best x = best := by simp [keep, hx]
      rw [hk]
      rcases ih best hb with ⟨hf, hall⟩ | ⟨before, m, after, rfl, hf, hm, hbef, haft⟩
      · refine Or.inl ⟨hf, ?_⟩
        intro m hm
        rcases List.mem_cons.mp hm with rfl | hm
        · exact hx
        · exact hall m hm
      · refine Or.inr ⟨x :: before, m, after, rfl, hf, hm, ?_, haft⟩
        intro u hu
        rcases List.mem_cons.mp hu with rfl | hu
        · cases hn : (val u).isNaN with
          | true => exact Or.inl rfl
          | false =>
            have h1 := (prefers_eq_false_iff hn hb).mp hx
            have h2 := prefers_iff.mp hm
            exact Or.inr (prefers_iff.mpr ⟨h2.1, hn, by omega⟩)
        · exact hbef u hu

theorem isNaN_foldl_better {side : Side} {best : Float} (h : best.isNaN = false) (vs : List Float) :
    (vs.foldl side.better best).isNaN = false := by
  induction vs generalizing best with
  | nil => exact h
  | cons v vs ih => exact ih (isNaN_better h v)

theorem rank_le_better (side : Side) (best v : Float) : side.rank best ≤ side.rank (side.better best v) := by
  unfold better
  split
  · rename_i h
    have := (prefers_iff.mp h).2.2
    omega
  · exact Int.le_refl _

theorem rank_le_foldl_better (side : Side) (best : Float) (vs : List Float) :
    side.rank best ≤ side.rank (vs.foldl side.better best) := by
  induction vs generalizing best with
  | nil => exact Int.le_refl _
  | cons v vs ih => exact Int.le_trans (side.rank_le_better best v) (ih _)

/-- Nothing is taken once the best of all scores is held. -/
theorem foldl_keep_of_top {side : Side} {val : μ → Float} {best : Option μ × Float}
    (h : Score.top ≤ side.rank best.2) (ms : List μ) : ms.foldl (side.keep val) best = best := by
  induction ms with
  | nil => rfl
  | cons m ms ih =>
    have hm : side.prefers (val m) best.2 = false := by
      rw [Bool.eq_false_iff, ne_eq, prefers_iff]
      have := side.rank_le_top (val m)
      omega
    have hk : side.keep val best m = best := by simp [keep, hm]
    rw [List.foldl_cons, hk, ih]

/-! ### The best score -/

/-- What a side ends with beats nothing, and comes first among its equals if it is not the worst score. -/
private theorem foldl_better (side : Side) (vs : List Float) :
    (vs.foldl side.better side.worst).isNaN = false ∧
    (∀ u ∈ vs, side.prefers u (vs.foldl side.better side.worst) = false) ∧
    (vs.foldl side.better side.worst = side.worst ∨
      ∃ before after, vs = before ++ vs.foldl side.better side.worst :: after ∧
        ∀ u ∈ before, u.isNaN = true ∨ side.prefers (vs.foldl side.better side.worst) u = true) := by
  have hw := side.isNaN_worst
  have hsnd : (vs.foldl (side.keep id) (none, side.worst)).2 = vs.foldl side.better side.worst := by
    rw [foldl_keep_snd, List.map_id]
  rw [← hsnd]
  rcases side.foldl_keep id vs (none, side.worst) hw with ⟨hf, hall⟩ | ⟨before, b, after, hvs, hf, hb, hbef, haft⟩
  · rw [hf]
    exact ⟨hw, hall, Or.inl rfl⟩
  · rw [hf]
    have hbn : b.isNaN = false := (prefers_iff.mp hb).1
    refine ⟨hbn, ?_, Or.inr ⟨before, after, hvs, hbef⟩⟩
    intro u hu
    rw [hvs, List.mem_append, List.mem_cons] at hu
    rcases hu with hu | rfl | hu
    · rcases hbef u hu with hn | hp
      · exact prefers_of_isNaN hn b
      · have h := prefers_iff.mp hp
        simp only [id_eq] at h ⊢
        exact (prefers_eq_false_iff h.2.1 hbn).mpr (by omega)
    · exact (prefers_eq_false_iff hbn hbn).mpr (Int.le_refl _)
    · exact haft u hu

/-- The best score of a list is what a side ends with when it starts from the worst one. -/
theorem best_eq_foldl (side : Side) (vs : List Float) : side.best vs = vs.foldl side.better side.worst := by
  obtain ⟨hn, hall, hfirst⟩ := side.foldl_better vs
  generalize vs.foldl side.better side.worst = b at *
  unfold best
  rcases hfirst with rfl | ⟨before, after, hvs, hbef⟩
  · -- nothing beats the worst score, so every number in the list is that score
    cases h : (vs.filter fun v => !v.isNaN).find? fun v => vs.all fun u => !side.prefers u v with
    | none => rfl
    | some u =>
      obtain ⟨hu, hun⟩ := List.mem_filter.mp (List.mem_of_find?_eq_some h)
      have hle := (prefers_eq_false_iff (by simpa using hun) hn).mp (hall u hu)
      exact eq_worst_of_rank (by simpa using hle)
  · have hfind : (vs.filter fun v => !v.isNaN).find? (fun v => vs.all fun u => !side.prefers u v) = some b := by
      rw [List.find?_eq_some_iff_append]
      refine ⟨by simpa using hall, before.filter fun v => !v.isNaN, after.filter fun v => !v.isNaN, ?_, ?_⟩
      · rw [hvs, List.filter_append, List.filter_cons_of_pos (by rw [hn]; rfl)]
      · intro u hu
        obtain ⟨hu, hun⟩ := List.mem_filter.mp hu
        have hp : side.prefers b u = true := (hbef u hu).resolve_left (by simpa using hun)
        simp only [Bool.not_eq_true', List.all_eq_false]
        exact ⟨b, by rw [hvs]; simp, by simp [hp]⟩
    rw [hfind]; rfl

theorem isNaN_best (side : Side) (vs : List Float) : (side.best vs).isNaN = false := by
  rw [best_eq_foldl]
  exact (side.foldl_better vs).1

/-- Nothing in the list is better than its best score. -/
theorem not_prefers_best {side : Side} {vs : List Float} {v : Float} (hv : v ∈ vs) :
    side.prefers v (side.best vs) = false := by
  rw [best_eq_foldl]
  exact (side.foldl_better vs).2.1 v hv

theorem best_mem {side : Side} {vs : List Float} (h : side.best vs ≠ side.worst) : side.best vs ∈ vs := by
  rw [best_eq_foldl] at *
  have hfirst := (side.foldl_better vs).2.2.resolve_left h
  generalize vs.foldl side.better side.worst = b at *
  obtain ⟨before, after, rfl, -⟩ := hfirst
  simp

/-- The best score is in the list if anything there is better than the worst one. -/
theorem best_mem_of_prefers {side : Side} {vs : List Float} {v : Float} (hv : v ∈ vs)
    (h : side.prefers v side.worst = true) : side.best vs ∈ vs := by
  apply best_mem
  intro hbest
  have hnot : side.prefers v (side.best vs) = false := not_prefers_best hv
  rw [hbest, h] at hnot
  cases hnot

end TreeSearch.Side
