import TreeSearch.Proofs.Game.Exhaustive

/-!
# The window contract

A search with pruning is given a window and may answer with something else than the value of the position, but only
on the same side of the window, and never beyond the bound: `Window.Agrees`.

* (the two sides alike) a side wants to raise the `floor` of the window and its opponent to lower the `ceiling`;
  measured by the ranks of the side, the contract reads the same for both: `Window.agrees_iff`.
* (one move) `Scanned.step`: the contract holds for the best score held so far, and visiting one more move keeps it.
* (all moves) `scan_agrees`: so it holds for the score that a scan ends with, whether or not it is cut off.
* (whole tree) `value_agrees`: the search with pruning honours the contract in every open window.
* (root) `choose_pruned`: the full window holds every score, so at the root move and value are those of `minimax`.
-/

namespace TreeSearch

variable {σ μ : Type}

namespace Window

/-- The answer `r` may stand for the value `v` in the window: it is `v` itself if `v` lies inside, and otherwise it
lies between `v` and the bound that `v` does not pass. -/
structure Agrees (w : Window) (v r : Float) : Prop where
  isNaN_eq : r.isNaN = v.isNaN
  inside : w.lo < v → v < w.hi → r = v
  below : v ≤ w.lo → v ≤ r ∧ r ≤ w.lo
  above : w.hi ≤ v → w.hi ≤ r ∧ r ≤ v

/-- The rank of what the side is already sure of. -/
def floor (w : Window) : Side → Int
  | .plus => Side.plus.rank w.lo
  | .minus => Side.minus.rank w.hi

/-- The rank that the opponent of the side will not let it pass. -/
def ceiling (w : Window) : Side → Int
  | .plus => Side.plus.rank w.hi
  | .minus => Side.minus.rank w.lo

private theorem lo_lt_hi_iff {w : Window} (side : Side) :
    w.lo < w.hi ↔ w.lo.isNaN = false ∧ w.hi.isNaN = false ∧ w.floor side < w.ceiling side := by
  rw [Score.lt_iff]
  refine and_congr_right fun _ => and_congr_right fun _ => ?_
  cases side
  · rfl
  · simp only [floor, ceiling, Side.rank]
    omega

private theorem neg_top_le_floor (w : Window) (side : Side) : -Score.top ≤ w.floor side := by
  cases side
  · exact Side.plus.neg_top_le_rank w.lo
  · exact Side.minus.neg_top_le_rank w.hi

theorem full_lo_lt_hi : full.lo < full.hi := by
  simp only [Score.lt_iff, full, Score.isNaN_neg_infinity, Score.isNaN_infinity, Score.rank_neg_infinity,
    Score.rank_infinity, true_and]
  decide

private theorem floor_full (side : Side) : full.floor side = -Score.top := by
  cases side <;> simp [floor, full, Side.rank]

private theorem ceiling_full (side : Side) : full.ceiling side = Score.top := by
  cases side <;> simp [ceiling, full, Side.rank]

theorem agrees_iff {w : Window} (hw : w.lo < w.hi) (side : Side) {v r : Float} (hv : v.isNaN = false) :
    w.Agrees v r ↔ r.isNaN = false ∧
      (w.floor side < side.rank v → side.rank v < w.ceiling side → r = v) ∧
      (side.rank v ≤ w.floor side → side.rank v ≤ side.rank r ∧ side.rank r ≤ w.floor side) ∧
      (w.ceiling side ≤ side.rank v → w.ceiling side ≤ side.rank r ∧ side.rank r ≤ side.rank v) := by
  obtain ⟨hlo, hhi, -⟩ := Score.lt_iff.mp hw
  have key : w.Agrees v r ↔ r.isNaN = false ∧
      (Score.rank w.lo < Score.rank v → Score.rank v < Score.rank w.hi → r = v) ∧
      (Score.rank v ≤ Score.rank w.lo → Score.rank v ≤ Score.rank r ∧ Score.rank r ≤ Score.rank w.lo) ∧
      (Score.rank w.hi ≤ Score.rank v → Score.rank w.hi ≤ Score.rank r ∧ Score.rank r ≤ Score.rank v) := by
    constructor
    · rintro ⟨hn, hin, hbelow, habove⟩
      rw [hv] at hn
      simp only [Score.lt_iff, Score.le_iff, hlo, hhi, hv, hn, true_and] at hin hbelow habove
      exact ⟨hn, hin, hbelow, habove⟩
    · rintro ⟨hn, hin, hbelow, habove⟩
      refine ⟨by rw [hn, hv], ?_, ?_, ?_⟩ <;>
        simpa only [Score.lt_iff, Score.le_iff, hlo, hhi, hv, hn, true_and]
  rw [key]
  cases side with
  | plus => rfl
  | minus =>
    simp only [floor, ceiling, Side.rank]
    constructor
    · rintro ⟨hn, hin, hbelow, habove⟩
      exact ⟨hn, fun h k => hin (by omega) (by omega), fun h => by have := habove (by omega); omega,
        fun h => by have := hbelow (by omega); omega⟩
    · rintro ⟨hn, hin, hbelow, habove⟩
      exact ⟨hn, fun h k => hin (by omega) (by omega), fun h => by have := habove (by omega); omega,
        fun h => by have := hbelow (by omega); omega⟩

theorem Agrees.refl (w : Window) (v : Float) : w.Agrees v v where
  isNaN_eq := rfl
  inside _ _ := rfl
  below h := ⟨Score.le_iff.mpr ⟨(Score.le_iff.mp h).1, (Score.le_iff.mp h).1, Int.le_refl _⟩, h⟩
  above h := ⟨h, Score.le_iff.mpr ⟨(Score.le_iff.mp h).2.1, (Score.le_iff.mp h).2.1, Int.le_refl _⟩⟩

/-- An answer at the ceiling means that the value is there too. -/
private theorem Agrees.ceiling_le {w : Window} {v r : Float} (h : w.Agrees v r) (hw : w.lo < w.hi) (side : Side)
    (hv : v.isNaN = false) (hr : w.ceiling side ≤ side.rank r) :
    w.ceiling side ≤ side.rank v ∧ side.rank r ≤ side.rank v := by
  have hopen := ((lo_lt_hi_iff side).mp hw).2.2
  obtain ⟨-, hin, hbelow, habove⟩ := (agrees_iff hw side hv).mp h
  have hrank : w.floor side < side.rank v → side.rank v < w.ceiling side → side.rank r = side.rank v :=
    fun h k => congrArg side.rank (hin h k)
  omega

/-- Every number lies inside the full window or is one of its ends. -/
private theorem eq_of_agrees_full {v r : Float} (hv : v.isNaN = false) (h : full.Agrees v r) : r = v := by
  obtain ⟨-, hin, hbelow, habove⟩ := (agrees_iff full_lo_lt_hi .plus hv).mp h
  rw [floor_full] at hin hbelow
  rw [ceiling_full] at hin habove
  by_cases hlow : Side.plus.rank v ≤ -Score.top
  · rw [Side.eq_worst_of_rank hlow, Side.eq_worst_of_rank (hbelow hlow).2]
  · by_cases hhigh : Score.top ≤ Side.plus.rank v
    · rw [Side.eq_worst_opponent_of_rank hhigh, Side.eq_worst_opponent_of_rank (habove hhigh).1]
    · exact hin (by omega) (by omega)

/-! ### Narrowing -/

private theorem floor_narrow {w : Window} (hw : w.lo < w.hi) (side : Side) {v : Float} (hv : v.isNaN = false) :
    (w.narrow side v).floor side = max (w.floor side) (side.rank v) := by
  obtain ⟨hlo, hhi, -⟩ := Score.lt_iff.mp hw
  cases side with
  | plus =>
    simp only [narrow, Score.lt_iff, hlo, hv, true_and]
    split <;> simp only [floor, Side.rank] <;> omega
  | minus =>
    simp only [narrow, Score.lt_iff, hhi, hv, true_and]
    split <;> simp only [floor, Side.rank] <;> omega

private theorem ceiling_narrow (w : Window) (side : Side) (v : Float) :
    (w.narrow side v).ceiling side = w.ceiling side := by
  cases side <;> simp only [narrow] <;> split <;> rfl

end Window

namespace Search

/-! ### Scanning in a window -/

/-- What holds between two moves of a scan that entered the window `w₀`: the true best score so far is `B`, the scan
holds `b`, and the window has become `w`. -/
structure Scanned (side : Side) (w₀ : Window) (B b : Float) (w : Window) : Prop where
  isNaN_held : b.isNaN = false
  isNaN_true : B.isNaN = false
  agrees : w₀.Agrees B b
  lo_lt_hi : w.lo < w.hi
  floor_eq : w.floor side = max (w₀.floor side) (side.rank b)
  ceiling_eq : w.ceiling side = w₀.ceiling side

private theorem Scanned.start {w : Window} (hw : w.lo < w.hi) (side : Side) :
    Scanned side w side.worst side.worst w where
  isNaN_held := side.isNaN_worst
  isNaN_true := side.isNaN_worst
  agrees := Window.Agrees.refl _ _
  lo_lt_hi := hw
  floor_eq := by
    have h := w.neg_top_le_floor side
    rw [Side.rank_worst]
    omega
  ceiling_eq := rfl

/-- Visiting one more move keeps the contract. -/
theorem Scanned.step {side : Side} {w₀ w : Window} {B b v r : Float} (hw₀ : w₀.lo < w₀.hi)
    (h : Scanned side w₀ B b w) (hr : w.Agrees v r) : w₀.Agrees (side.better B v) (side.better b r) := by
  obtain ⟨hb, hB, hagree, hw, hfloor, hceil⟩ := h
  cases hv : v.isNaN with
  | true =>
    -- neither the value nor the answer replaces anything
    have hrn : r.isNaN = true := hr.isNaN_eq.trans hv
    rw [Side.better, Side.better, Side.prefers_of_isNaN hv, Side.prefers_of_isNaN hrn]
    exact hagree
  | false =>
    have hopen := ((Window.lo_lt_hi_iff side).mp hw).2.2
    rw [Window.agrees_iff hw₀ side (Side.isNaN_better hB v)]
    obtain ⟨-, hBin, hBbelow, hBabove⟩ := (Window.agrees_iff hw₀ side hB).mp hagree
    obtain ⟨hrn, hin, hbelow, habove⟩ := (Window.agrees_iff hw side hv).mp hr
    have hBrank : w₀.floor side < side.rank B → side.rank B < w₀.ceiling side → side.rank b = side.rank B :=
      fun h k => congrArg side.rank (hBin h k)
    have hrank : w.floor side < side.rank v → side.rank v < w.ceiling side → side.rank r = side.rank v :=
      fun h k => congrArg side.rank (hin h k)
    have hpb : side.prefers r b = true ↔ side.rank b < side.rank r := by
      rw [Side.prefers_iff]
      simp only [hrn, hb, true_and]
    have hpB : side.prefers v B = true ↔ side.rank B < side.rank v := by
      rw [Side.prefers_iff]
      simp only [hv, hB, true_and]
    simp only [Side.better, hpb, hpB]
    by_cases h1 : side.rank b < side.rank r <;> by_cases h2 : side.rank B < side.rank v <;>
      simp only [h1, h2, if_true, if_false]
    · -- both are replaced; inside the window the answer was exact
      refine ⟨hrn, fun h k => hin ?_ ?_, ?_, ?_⟩ <;> omega
    · -- only what the scan holds is replaced, so the value lies outside the window, or it would be exact
      refine ⟨hrn, ?_, ?_, ?_⟩
      · intro h k; exfalso; omega
      · omega
      · omega
    · -- only the true best is replaced: the answer stayed below a bound that the scan already holds
      refine ⟨hb, ?_, ?_, ?_⟩
      · intro h k; exfalso; omega
      · omega
      · omega
    · exact ⟨hb, hBin, hBbelow, hBabove⟩

/-- After the visit either the window is closed by what the scan holds, or the scan goes on. -/
private theorem Scanned.narrow {side : Side} {w₀ w : Window} {B b B' b' : Float} (h : Scanned side w₀ B b w)
    (hB : B'.isNaN = false) (hb : b'.isNaN = false) (hagree : w₀.Agrees B' b') (hle : side.rank b ≤ side.rank b') :
    ((w.narrow side b').closed = true ∧ w₀.ceiling side ≤ side.rank b') ∨
    ((w.narrow side b').closed = false ∧ Scanned side w₀ B' b' (w.narrow side b')) := by
  obtain ⟨-, -, -, hw, hfloor, hceil⟩ := h
  have hopen := ((Window.lo_lt_hi_iff side).mp hw).2.2
  have hfloor' := Window.floor_narrow hw side hb
  have hceil' := w.ceiling_narrow side b'
  have hnumeric := (Window.isNumeric_of_lt hw).narrow side b'
  cases hc : (w.narrow side b').closed with
  | true =>
    have hnot : ¬(w.narrow side b').lo < (w.narrow side b').hi := by
      rw [← hnumeric.closed_eq_false_iff, hc]
      decide
    rw [Window.lo_lt_hi_iff side] at hnot
    simp only [hnumeric.isNaN_lo, hnumeric.isNaN_hi, true_and] at hnot
    exact Or.inl ⟨rfl, by omega⟩
  | false =>
    have hw' := hnumeric.closed_eq_false_iff.mp hc
    exact Or.inr ⟨rfl, hb, hB, hagree, hw', by omega, by omega⟩

section

variable {visit : μ → Window → Counted Float} {val : μ → Float} {ms : List μ}

/-- A scan with pruning honours the contract if every visit does. -/
theorem scan_agrees {side : Side} {w₀ w : Window} {B b : Float} (hw₀ : w₀.lo < w₀.hi)
    (h : ∀ m ∈ ms, ∀ w : Window, w.lo < w.hi → ∃ r, (visit m w).result = .ok r ∧ w.Agrees (val m) r)
    (hscan : Scanned side w₀ B b w) :
    ∃ r, (scan true side visit b w ms).result = .ok r ∧ w₀.Agrees ((ms.map val).foldl side.better B) r := by
  induction ms generalizing B b w with
  | nil => exact ⟨b, rfl, hscan.agrees⟩
  | cons m ms ih =>
    obtain ⟨r, hr, hagree⟩ := h m (List.mem_cons_self ..) w hscan.lo_lt_hi
    have hstep := hscan.step hw₀ hagree
    have hB : (side.better B (val m)).isNaN = false := Side.isNaN_better hscan.isNaN_true _
    have hb : (side.better b r).isNaN = false := Side.isNaN_better hscan.isNaN_held _
    have htail := fun m' hm' => h m' (List.mem_cons_of_mem _ hm')
    rw [scan, Counted.result_bind, hr, List.map_cons, List.foldl_cons]
    show ∃ r', Counted.result (if true && (w.narrow side (side.better b r)).closed then _ else _) = _ ∧ _
    rcases hscan.narrow hB hb hstep (side.rank_le_better b r) with ⟨hc, hceil⟩ | ⟨hc, hnext⟩
    · -- cut off: the rest of the moves can only raise the true score, which has already reached the ceiling
      rw [hc]
      refine ⟨side.better b r, rfl, ?_⟩
      have hopen := ((Window.lo_lt_hi_iff side).mp hw₀).2.2
      have hrest := side.rank_le_foldl_better (side.better B (val m)) (ms.map val)
      have htrue := hstep.ceiling_le hw₀ side hB hceil
      rw [Window.agrees_iff hw₀ side (Side.isNaN_foldl_better hB _)]
      refine ⟨hb, fun _ k => ?_, fun k => ?_, fun _ => ?_⟩ <;> omega
    · rw [hc]
      exact ih htail hnext

private theorem keep_of_better_eq {side : Side} {best : Option μ × Float} {m : μ} {r : Float}
    (h : side.better best.2 r = side.better best.2 (val m)) :
    (if side.prefers r best.2 = true then (some m, r) else best) = side.keep val best m := by
  have hirr : ∀ {v : Float}, side.prefers v v = true → False := fun hv => by
    have := (Side.prefers_iff.mp hv).2.2
    omega
  unfold Side.better at h
  unfold Side.keep
  by_cases h1 : side.prefers r best.2 = true <;> by_cases h2 : side.prefers (val m) best.2 = true <;>
    simp only [h1, h2, if_true] at h ⊢
  · rw [h]
  · exact absurd (h ▸ h1) hirr
  · exact absurd (h ▸ h2) hirr
  · simp

/-- In the full window, pruning changes neither the move that is kept nor its score. -/
private theorem pick_pruned {side : Side} {best : Option μ × Float} {w : Window}
    (h : ∀ m ∈ ms, ∀ w : Window, w.lo < w.hi → ∃ r, (visit m w).result = .ok r ∧ w.Agrees (val m) r)
    (hscan : Scanned side .full best.2 best.2 w) :
    (pick true side visit best w ms).result = .ok (ms.foldl (side.keep val) best) := by
  induction ms generalizing best w with
  | nil => rfl
  | cons m ms ih =>
    obtain ⟨r, hr, hagree⟩ := h m (List.mem_cons_self ..) w hscan.lo_lt_hi
    have hb : (side.better best.2 (val m)).isNaN = false := Side.isNaN_better hscan.isNaN_held _
    have hstep := hscan.step Window.full_lo_lt_hi hagree
    have heq := Window.eq_of_agrees_full hb hstep
    rw [heq, ← Side.keep_snd] at hstep
    rw [← Side.keep_snd] at hb
    have hle := side.rank_le_better best.2 (val m)
    rw [← Side.keep_snd] at hle
    have htail := fun m' hm' => h m' (List.mem_cons_of_mem _ hm')
    rw [pick, Counted.result_bind, hr, List.foldl_cons]
    show Counted.result (if true && (w.tighten side _).closed then _ else _) = _
    simp only [keep_of_better_eq heq, Window.tighten_eq_narrow (Window.isNumeric_of_lt hscan.lo_lt_hi)]
    rcases hscan.narrow hb hb hstep hle with ⟨hc, hceil⟩ | ⟨hc, hnext⟩
    · rw [hc]
      rw [Window.ceiling_full] at hceil
      rw [Side.foldl_keep_of_top hceil]
      rfl
    · rw [hc]
      exact ih htail hnext

end

/-- In a sound tree the search with pruning answers in every open window as the contract says. -/
theorem value_agrees {e : Search σ μ} (hp : e.config.pruning = true) {depth : Nat} {s : σ}
    (h : e.game.Sound depth s) {w : Window} (hw : w.lo < w.hi) :
    ∃ r, (e.value depth s w).result = .ok r ∧ w.Agrees (e.minimax depth s) r := by
  induction depth generalizing s w with
  | zero => exact ⟨_, result_value_of_stops (Or.inr (Or.inl rfl)) w, Window.Agrees.refl _ _⟩
  | succ depth ih =>
    rcases e.stops_or (depth + 1) s with hstop | ⟨d, hd, hs, hm⟩
    · rw [minimax_of_stops hstop]
      exact ⟨_, result_value_of_stops hstop w, Window.Agrees.refl _ _⟩
    · obtain rfl := Nat.succ.inj hd
      rw [result_value_succ hs hm, hp, minimax_succ hs hm h, Side.best_eq_foldl]
      refine scan_agrees hw ?_ (Scanned.start hw _)
      intro m hmem w hw
      obtain ⟨t, ht, hsound⟩ := (Game.sound_succ hs).mp h m hmem
      rw [result_visit ht, valueAfter_of_step ht]
      exact ih hsound hw

/-- At the root the search with pruning finds the first optimal move and the value of the position. -/
theorem choose_pruned {e : Search σ μ} (hp : e.config.pruning = true) {depth : Nat} {s : σ}
    (h : e.game.Sound depth s) : (e.choose s depth).result = .ok (e.optimal depth s, e.minimax depth s) := by
  rcases e.stops_or depth s with hstop | ⟨d, rfl, hs, hm⟩
  · rw [result_choose_of_stops hstop, minimax_of_stops hstop, optimal_of_stops hstop]
  · rw [result_choose_succ hs hm, hp, ← foldl_keep_valueAfter hs hm h]
    refine pick_pruned ?_ (Scanned.start Window.full_lo_lt_hi _)
    intro m hmem w hw
    obtain ⟨t, ht, hsound⟩ := (Game.sound_succ hs).mp h m hmem
    rw [result_visit ht, valueAfter_of_step ht]
    exact value_agrees hp hsound hw

/-- The root finds the same with and without pruning. -/
theorem choose_sound (e : Search σ μ) {depth : Nat} {s : σ} (h : e.game.Sound depth s) :
    (e.choose s depth).result = .ok (e.optimal depth s, e.minimax depth s) := by
  cases hp : e.config.pruning with
  | false => exact choose_exhaustive hp h
  | true => exact choose_pruned hp h

end Search

end TreeSearch
