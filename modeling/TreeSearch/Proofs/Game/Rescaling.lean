import TreeSearch.Proofs.Game.Correspondence
import TreeSearch.Proofs.Game.Outcome
import TreeSearch.Proofs.TicTacToe.Rules

/-!
# Rescaled scores

A search compares scores and does nothing else with them, so it goes through the same moves if all scores are replaced
by others in the same order.

* `Score.Rescales A φ`: on the scores of `A` the function `φ` keeps the order, and it keeps the infinities.
* (all numbers) `Score.rescales_of_lt`: of all numbers at once it is enough to ask that `φ` be strictly increasing.
  Such a function has no room to move: it keeps every rank.
* (search) `Engine.bestMove_of_rescales`: the same moves are found, with the images of the values.
* (finite scores) `Search.isFinite_choose`: where all scores are finite, so is every value.
* (worth of a win) `Engine.bestMove_withWinScore`: where positions are scored by their winner, the value is a win for
  the same side, or for none, whatever a win is worth.
-/

namespace TreeSearch

variable {σ μ : Type}

namespace Score

/-- The scores of `A` are numbers, among them those that the sides start from, and `φ` keeps their order: a greater
score has a greater image, and equal ones, such as the two zeros, have equal images.  The infinities stay. -/
structure Rescales (A : Float → Prop) (φ : Float → Float) : Prop where
  isNaN_eq : ∀ x, A x → x.isNaN = false
  lt : ∀ x y, A x → A y → x < y → φ x < φ y
  beq : ∀ x y, A x → A y → (x == y) = true → (φ x == φ y) = true
  worst : ∀ side : Side, A side.worst ∧ φ side.worst = side.worst

private theorem Rescales.lt_iff {A : Float → Prop} {φ : Float → Float} (h : Rescales A φ) {x y : Float} (hx : A x)
    (hy : A y) : φ x < φ y ↔ x < y := by
  refine ⟨fun hlt => ?_, h.lt x y hx hy⟩
  have hxn := h.isNaN_eq x hx
  have hyn := h.isNaN_eq y hy
  have hrank := (Score.lt_iff.mp hlt).2.2
  rw [Score.lt_iff]
  refine ⟨hxn, hyn, ?_⟩
  rcases Int.lt_trichotomy (rank x) (rank y) with hxy | hxy | hxy
  · exact hxy
  · have := (beq_iff.mp (h.beq x y hx hy (beq_iff.mpr ⟨hxn, hyn, hxy⟩))).2.2
    omega
  · have := (Score.lt_iff.mp (h.lt y x hy hx (Score.lt_iff.mpr ⟨hyn, hxn, hxy⟩))).2.2
    omega

private theorem Rescales.sameOrder {A : Float → Prop} {φ : Float → Float} (h : Rescales A φ) :
    SameOrder fun v v' => A v ∧ v' = φ v where
  prefers_eq := by
    rintro v _ w _ ⟨hv, rfl⟩ ⟨hw, rfl⟩ side
    cases side
    · exact (decide_eq_decide.mpr (h.lt_iff hw hv)).symm
    · exact (decide_eq_decide.mpr (h.lt_iff hv hw)).symm
  worst side := ⟨(h.worst side).1, (h.worst side).2.symm⟩

/-! ### Increasing on all numbers -/

section

variable {φ : Float → Float} (hφ : ∀ x y, x < y → φ x < φ y)

include hφ

/-- No number falls, counted up from the bottom. -/
private theorem le_rank_of_lt (hbot : φ (-infinity) = -infinity) (n : Nat) {x : Float} (hx : x.isNaN = false)
    (hn : rank x = -top + n) : (φ x).isNaN = false ∧ rank x ≤ rank (φ x) := by
  induction n generalizing x with
  | zero =>
    rw [eq_neg_infinity_of_rank (by omega : rank x ≤ -top), hbot]
    exact ⟨isNaN_neg_infinity, Int.le_refl _⟩
  | succ n ih =>
    have htop := rank_le_top x
    obtain ⟨y, hy, hrank⟩ := exists_rank (r := -top + n) (by omega) (by omega)
    obtain ⟨-, hle⟩ := ih hy hrank
    obtain ⟨-, hnum, hlt⟩ := Score.lt_iff.mp (hφ y x (Score.lt_iff.mpr ⟨hy, hx, by omega⟩))
    exact ⟨hnum, by omega⟩

/-- No number rises, counted down from the top. -/
private theorem rank_le_of_lt (htop : φ infinity = infinity) (n : Nat) {x : Float} (hx : x.isNaN = false)
    (hn : rank x = top - n) : rank (φ x) ≤ rank x := by
  induction n generalizing x with
  | zero =>
    rw [eq_infinity_of_rank (by omega : top ≤ rank x), htop]
  | succ n ih =>
    have hbot := neg_top_le_rank x
    obtain ⟨y, hy, hrank⟩ := exists_rank (r := top - n) (by omega) (by omega)
    have hle := ih hy hrank
    obtain ⟨-, -, hlt⟩ := Score.lt_iff.mp (hφ x y (Score.lt_iff.mpr ⟨hx, hy, by omega⟩))
    omega

/-- A strictly increasing function of all numbers that keeps the infinities keeps every rank, and so the order. -/
theorem rescales_of_lt (hbot : φ (-infinity) = -infinity) (htop : φ infinity = infinity) :
    Rescales (fun x => x.isNaN = false) φ := by
  have key : ∀ x : Float, x.isNaN = false → (φ x).isNaN = false ∧ rank (φ x) = rank x := by
    intro x hx
    have hlow := neg_top_le_rank x
    have hhigh := rank_le_top x
    obtain ⟨hnum, hle⟩ := le_rank_of_lt hφ hbot (rank x + top).toNat hx (by omega)
    have hge := rank_le_of_lt hφ htop (top - rank x).toNat hx (by omega)
    exact ⟨hnum, by omega⟩
  refine ⟨fun _ hx => hx, fun x y _ _ => hφ x y, fun x y hx hy hxy => ?_, fun side => ?_⟩
  · rw [beq_iff, (key x hx).2, (key y hy).2]
    exact ⟨(key x hx).1, (key y hy).1, (beq_iff.mp hxy).2.2⟩
  · cases side
    · exact ⟨isNaN_neg_infinity, hbot⟩
    · exact ⟨isNaN_infinity, htop⟩

end

/-- Writes both zeros alike. -/
def unsigned (x : Float) : Float := if x == 0 then 0 else x

private theorem unsigned_lt (x y : Float) (h : x < y) : unsigned x < unsigned y := by
  have key : ∀ x, (unsigned x).isNaN = x.isNaN ∧ rank (unsigned x) = rank x := by
    intro x
    unfold unsigned
    split
    · rename_i hx
      obtain ⟨hx, -, hrank⟩ := beq_iff.mp hx
      exact ⟨by rw [isNaN_zero, hx], hrank.symm⟩
    · exact ⟨rfl, rfl⟩
  rw [Score.lt_iff] at h ⊢
  rw [(key x).1, (key y).1, (key x).2, (key y).2]
  exact h

/-- Makes a win worth ten a great one for plus and a small one for minus. -/
def skew (x : Float) : Float := if x == 10 then 1000 else if x == -10 then -1 else x

private theorem rescales_skew : Rescales (· ∈ [-infinity, -10, 0, 10, infinity]) skew where
  isNaN_eq := by decide +kernel
  lt x y hx hy := by
    have h : ∀ x ∈ [-infinity, -10, 0, 10, infinity], ∀ y ∈ [-infinity, -10, 0, 10, infinity],
        x < y → skew x < skew y := by decide +kernel
    exact h x hx y hy
  beq x y hx hy := by
    have h : ∀ x ∈ [-infinity, -10, 0, 10, infinity], ∀ y ∈ [-infinity, -10, 0, 10, infinity],
        (x == y) = true → (skew x == skew y) = true := by decide +kernel
    exact h x hx y hy
  worst := by
    intro side
    cases side <;> exact ⟨by simp [Side.worst], by decide +kernel⟩

end Score

/-- Scores replaced in their order lead to the same move and to the image of the value, or to the same error, and the
search counts the same. -/
theorem Engine.bestMove_of_rescales {e : Engine σ μ} {A : Float → Prop} {φ : Float → Float} (hφ : Score.Rescales A φ)
    {E E' : Evaluator σ} (hA : ∀ s, A (E s e.config.winScore))
    (hE : ∀ s, E' s e.config.winScore = φ (E s e.config.winScore)) (s : σ) (depth : Nat) :
    ((e.withEvaluator E').bestMove s depth).1 =
        ((e.withEvaluator E).bestMove s depth).1.map (fun r => (r.1, φ r.2)) ∧
      ((e.withEvaluator E').bestMove s depth).2.tally = ((e.withEvaluator E).bestMove s depth).2.tally := by
  have hcorr : (e.withEvaluator E).toSearch.Corresponds id (fun v v' => A v ∧ v' = φ v)
      (e.withEvaluator E').toSearch :=
    ⟨rfl, rfl, rfl, fun _ => rfl, rfl, fun t => ⟨hA t, hE t⟩⟩
  exact bestMove_of_corresponds hφ.sameOrder.correspondence hcorr rfl rfl (fun _ _ h => h.2) s depth

/-! ### Finite scores -/

namespace Search

/-- A scan of finite values ends with a finite one, unless there is nothing to scan. -/
private theorem isFinite_scan {prune : Bool} {side : Side} {visit : μ → Window → Counted Float} {ms : List μ}
    (hvisit : ∀ m ∈ ms, ∀ w v, (visit m w).result = .ok v → v.isFinite = true) {best r : Float} {w : Window}
    (hbest : best.isFinite = true ∨ best = side.worst ∧ ms ≠ [])
    (h : (scan prune side visit best w ms).result = .ok r) : r.isFinite = true := by
  induction ms generalizing best w with
  | nil =>
    obtain rfl : best = r := Except.ok.inj h
    exact hbest.resolve_right fun hworst => hworst.2 rfl
  | cons m ms ih =>
    rw [scan, Counted.result_bind] at h
    cases hv : (visit m w).result with
    | error err => rw [hv] at h; cases h
    | ok v =>
      have hfin := hvisit m (List.mem_cons_self ..) w v hv
      have hbetter : (side.better best v).isFinite = true := by
        unfold Side.better
        split
        · exact hfin
        · rename_i hnot
          refine hbest.resolve_right fun hworst => hnot ?_
          rw [hworst.1]
          exact Side.prefers_worst_of_isFinite hfin side
      have htail := fun m' hm' => hvisit m' (List.mem_cons_of_mem _ hm')
      rw [hv] at h
      simp only [Except.bind] at h
      split at h
      · obtain rfl : side.better best v = r := Except.ok.inj h
        exact hbetter
      · exact ih htail (Or.inl hbetter) h

variable {e : Search σ μ}

private theorem isFinite_value (hscore : ∀ s, (e.score s).isFinite = true) {depth : Nat} {s : σ} {w : Window}
    {r : Float} (h : (e.value depth s w).result = .ok r) : r.isFinite = true := by
  induction depth generalizing s w r with
  | zero =>
    rw [result_value_of_stops (Or.inr (Or.inl rfl))] at h
    rw [← Except.ok.inj h]
    exact hscore s
  | succ depth ih =>
    rcases e.stops_or (depth + 1) s with hstop | ⟨d, hd, hs, hm⟩
    · rw [result_value_of_stops hstop] at h
      rw [← Except.ok.inj h]
      exact hscore s
    · obtain rfl := Nat.succ.inj hd
      rw [result_value_succ hs hm] at h
      refine isFinite_scan (fun m _ w v hv => ?_) (Or.inr ⟨rfl, hm⟩) h
      obtain ⟨t, -, ht⟩ := step_of_visit hv
      exact ih ht

theorem isFinite_choose (hscore : ∀ s, (e.score s).isFinite = true) {depth : Nat} {s : σ} {r : Option μ × Float}
    (h : (e.choose s depth).result = .ok r) : r.2.isFinite = true :=
  isFinite_value hscore (result_value_of_choose h)

end Search

/-! ### The worth of a win -/

/-- The same outcome: a win for plus, no win, or a win for minus, when a win is worth `w` on one side and `w'` on the
other. -/
def Score.SameOutcome (w w' v v' : Float) : Prop := v = w ∧ v' = w' ∨ v = 0 ∧ v' = 0 ∨ v = -w ∧ v' = -w'

/-- The finite rungs of the ladder are the three outcomes. -/
private theorem Score.SameRung.sameOutcome {w w' v v' : Float} (h : SameRung w w' v v') (hv : v.isFinite = true) :
    SameOutcome w w' v v' := by
  obtain ⟨l, hl, rfl, rfl⟩ := h
  obtain rfl | rfl | rfl | rfl | rfl : l = -2 ∨ l = -1 ∨ l = 0 ∨ l = 1 ∨ l = 2 := by omega
  · exact absurd rfl (Side.ne_worst_of_isFinite hv .plus)
  · exact Or.inr (Or.inr ⟨rfl, rfl⟩)
  · exact Or.inr (Or.inl ⟨rfl, rfl⟩)
  · exact Or.inl ⟨rfl, rfl⟩
  · exact absurd rfl (Side.ne_worst_of_isFinite hv .minus)

namespace Engine

private theorem corresponds_withWinScore {e : Engine σ μ} (he : e.evaluator = e.game.terminalScore) (w w' : Float) :
    (e.withWinScore w).toSearch.Corresponds id (Score.SameRung w w') (e.withWinScore w').toSearch where
  moves_eq := rfl
  step_eq := rfl
  terminal_eq := rfl
  turn_eq _ := rfl
  pruning_eq := rfl
  score s := by
    show Score.SameRung w w' (e.evaluator s w) (e.evaluator s w')
    rw [he]
    exact e.game.sameRung_terminalScore s w w'

/-- Where positions are scored by their winner, what a win is worth shows in the value only, and there only as the worth
of the outcome. -/
theorem bestMove_withWinScore {e : Engine σ μ} (he : e.evaluator = e.game.terminalScore) {w w' : Float}
    (hw : (e.withWinScore w).config.check = .ok ()) (hw' : (e.withWinScore w').config.check = .ok ()) (s : σ)
    (depth : Nat) :
    ((∃ err, ((e.withWinScore w).bestMove s depth).1 = .error err ∧
        ((e.withWinScore w').bestMove s depth).1 = .error err) ∨
      ∃ m v v', ((e.withWinScore w).bestMove s depth).1 = .ok (m, v) ∧
        ((e.withWinScore w').bestMove s depth).1 = .ok (m, v') ∧ Score.SameOutcome w w' v v') ∧
    ((e.withWinScore w').bestMove s depth).2.tally = ((e.withWinScore w).bestMove s depth).2.tally := by
  have hworth : Score.Worth w := (Config.worth_of_check hw :)
  have hworth' : Score.Worth w' := (Config.worth_of_check hw' :)
  have horder := (Score.sameOrder_ladder hworth hworth').correspondence
  have hrun := (corresponds_withWinScore he w w').choose horder s depth
  have hfin : ∀ t, ((e.withWinScore w).score t).isFinite = true := by
    intro t
    show (e.evaluator t w).isFinite = true
    rw [he]
    exact e.game.isFinite_terminalScore t hworth
  refine ⟨?_, ?_⟩
  · rw [bestMove_of_check hw, bestMove_of_check hw']
    rcases hrun.result with herror | ⟨⟨m, v⟩, ⟨m', v'⟩, hv, hv', hmove, hrung⟩
    · exact Or.inl herror
    · obtain rfl : m = m' := hmove
      exact Or.inr ⟨m, v, v', hv, hv', hrung.sameOutcome (Search.isFinite_choose hfin hv)⟩
  · rw [bestMove, bestMove, hw, hw']
    exact hrun.tally_eq

/-- Only the order of the scores counts.  Scores that `φ` replaces in their order lead to the same move and the image
of the value, or to the same error, and to the same tally, be `φ` strictly increasing on all numbers or on those that
occur.  So what a win is worth decides neither the move nor the outcome that the value stands for. -/
theorem bestMove_rescaled :
    (∀ (e : Engine σ μ) (E E' : Evaluator σ) (φ : Float → Float), (∀ x y, x < y → φ x < φ y) →
      φ (-infinity) = -infinity → φ infinity = infinity → (∀ s, (E s e.config.winScore).isNaN = false) →
      (∀ s, E' s e.config.winScore = φ (E s e.config.winScore)) → ∀ s depth,
        ((e.withEvaluator E').bestMove s depth).1 =
          ((e.withEvaluator E).bestMove s depth).1.map (fun r => (r.1, φ r.2)) ∧
        ((e.withEvaluator E').bestMove s depth).2.tally = ((e.withEvaluator E).bestMove s depth).2.tally) ∧
    (∀ (e : Engine σ μ) (E E' : Evaluator σ) (φ : Float → Float) (A : Float → Prop), Score.Rescales A φ →
      (∀ s, A (E s e.config.winScore)) → (∀ s, E' s e.config.winScore = φ (E s e.config.winScore)) → ∀ s depth,
        ((e.withEvaluator E').bestMove s depth).1 =
          ((e.withEvaluator E).bestMove s depth).1.map (fun r => (r.1, φ r.2)) ∧
        ((e.withEvaluator E').bestMove s depth).2.tally = ((e.withEvaluator E).bestMove s depth).2.tally) ∧
    ∀ (e : Engine σ μ) (w w' : Float), e.evaluator = e.game.terminalScore → (e.withWinScore w).config.check = .ok () →
      (e.withWinScore w').config.check = .ok () → ∀ s depth,
        ((∃ err, ((e.withWinScore w).bestMove s depth).1 = .error err ∧
            ((e.withWinScore w').bestMove s depth).1 = .error err) ∨
          ∃ m v v', ((e.withWinScore w).bestMove s depth).1 = .ok (m, v) ∧
            ((e.withWinScore w').bestMove s depth).1 = .ok (m, v') ∧ Score.SameOutcome w w' v v') ∧
        ((e.withWinScore w').bestMove s depth).2.tally = ((e.withWinScore w).bestMove s depth).2.tally := by
  refine ⟨fun e E E' φ hφ hbot htop hnum hE s depth => ?_, fun e E E' φ A hφ hA hE s depth => ?_,
    fun e w w' he hw hw' s depth => bestMove_withWinScore he hw hw' s depth⟩
  · exact bestMove_of_rescales (Score.rescales_of_lt hφ hbot htop) hnum hE s depth
  · exact bestMove_of_rescales hφ hA hE s depth

/-- Three free cells and a draw.  It is one all the same if negated scores lose the sign of their zeros, if a win is
worth a hundred times as much to plus and a tenth as much to minus, and if a win is worth one and not ten. -/
theorem bestMove_rescaled_threeFree :
    let run := fun E : Evaluator TicTacToe.Position => (TicTacToe.engine.withEvaluator E).bestMove .threeFree 3
    let E : Evaluator TicTacToe.Position := TicTacToe.game.terminalScore
    ((run fun s w => Score.unsigned (-E s w)).1 = (run fun s w => -E s w).1.map (fun r => (r.1, Score.unsigned r.2)) ∧
      (run fun s w => Score.unsigned (-E s w)).2.tally = (run fun s w => -E s w).2.tally) ∧
    ((run fun s w => Score.skew (E s w)).1 = (run E).1.map (fun r => (r.1, Score.skew r.2)) ∧
      (run fun s w => Score.skew (E s w)).2.tally = (run E).2.tally) ∧
    ∃ m v v', ((TicTacToe.engine.withWinScore 10).bestMove .threeFree 3).1 = .ok (m, v) ∧
      ((TicTacToe.engine.withWinScore 1).bestMove .threeFree 3).1 = .ok (m, v') ∧ Score.SameOutcome 10 1 v v' := by
  intro run E
  obtain ⟨hall, hsome, hworth⟩ := @bestMove_rescaled TicTacToe.Position Nat
  have hten : Score.Worth 10 := ⟨by decide +kernel, by decide +kernel⟩
  refine ⟨?_, ?_, ?_⟩
  · refine hall TicTacToe.engine _ _ Score.unsigned Score.unsigned_lt (by decide +kernel) (by decide +kernel)
      (fun s => ?_) (fun _ => rfl) _ _
    rw [Score.isNaN_neg]
    exact (Score.isFinite_iff.mp (TicTacToe.game.isFinite_terminalScore s hten)).1
  · refine hsome TicTacToe.engine E _ Score.skew _ Score.rescales_skew (fun s => ?_) (fun _ => rfl) _ _
    show TicTacToe.game.terminalScore s 10 ∈ _
    unfold Game.terminalScore
    split <;> simp
  · have hrun : ((TicTacToe.engine.withWinScore 10).bestMove .threeFree 3).1 = .ok (some 4, 0) := by decide +kernel
    obtain ⟨herror | hfound, -⟩ := hworth TicTacToe.engine 10 1 rfl rfl rfl .threeFree 3
    · obtain ⟨err, herr, -⟩ := herror
      rw [hrun] at herr
      cases herr
    · exact hfound

end Engine

end TreeSearch
