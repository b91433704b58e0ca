import TreeSearch.Game.Engine
import TreeSearch.Proofs.Game.Best

/-!
# Exhaustive search

Without pruning a search visits the whole tree down to its depth, so it finds the value that `Search.minimax`
assigns to the position, whatever the window says.

* (one node) `result_value_succ`, `result_choose_succ`: away from the leaves a search goes through the moves with
  `visit`, which searches the position after a move.
* (windows) `Window.IsNumeric.narrow`: a window of numbers stays one, so that the root, which tightens its window, and
  the recursion, which narrows it, have the same windows.
* (root) `value_full_agrees_choose`: the search from the root and the recursion in the full window end alike and count
  alike, but for the root itself.
* (value) `value_exhaustive`: in a tree without refused moves the search without pruning ends with the value.
* (converse) `sound_of_value`, `sound_of_choose`, `Engine.sound_of_bestMove`: if the search without pruning ends with a
  result at all, then no move was refused, since every move was tried.
* (first optimal move) `foldl_keep_valueAfter`: what the root keeps is the first optimal move with the value.
-/

namespace TreeSearch

variable {σ μ : Type}

/-! ### Windows of numbers -/

namespace Window

variable {w : Window}

theorem isNumeric_of_lt (hw : w.lo < w.hi) : w.IsNumeric :=
  ⟨(Score.lt_iff.mp hw).1, (Score.lt_iff.mp hw).2.1⟩

theorem isNumeric_full : full.IsNumeric := ⟨Score.isNaN_neg_infinity, Score.isNaN_infinity⟩

/-- A score that narrows the window is a number. -/
theorem IsNumeric.narrow (hw : w.IsNumeric) (side : Side) (v : Float) : (w.narrow side v).IsNumeric := by
  cases side with
  | plus =>
    simp only [Window.narrow]
    split
    · rename_i h
      exact ⟨(Score.lt_iff.mp h).2.1, hw.isNaN_hi⟩
    · exact hw
  | minus =>
    simp only [Window.narrow]
    split
    · rename_i h
      exact ⟨hw.isNaN_lo, (Score.lt_iff.mp h).1⟩
    · exact hw

theorem IsNumeric.closed_eq_false_iff (hw : w.IsNumeric) : w.closed = false ↔ w.lo < w.hi := by
  rw [closed, decide_eq_false_iff_not, Score.le_iff, Score.lt_iff]
  simp only [hw.isNaN_lo, hw.isNaN_hi, true_and]
  omega

end Window

namespace Search

/-! ### One node of the search -/

/-- Searches the position after a move. -/
def visit (e : Search σ μ) (depth : Nat) (s : σ) (m : μ) (w : Window) : Counted Float :=
  e.play s m >>= fun next => e.value depth next w

theorem result_visit {e : Search σ μ} {s t : σ} {m : μ} (h : e.game.step s m = .ok t) (depth : Nat) (w : Window) :
    (e.visit depth s m w).result = (e.value depth t w).result := by
  rw [visit, Counted.result_bind, play, Counted.result_ofExcept, h]
  rfl

/-- The search stops at the position and asks for its score. -/
def Stops (e : Search σ μ) (depth : Nat) (s : σ) : Prop :=
  e.game.terminal s = true ∨ depth = 0 ∨ e.game.moves s = []

theorem stops_or (e : Search σ μ) (depth : Nat) (s : σ) :
    e.Stops depth s ∨ ∃ d, depth = d + 1 ∧ e.game.terminal s = false ∧ e.game.moves s ≠ [] := by
  unfold Stops
  cases e.game.terminal s with
  | true => exact Or.inl (Or.inl rfl)
  | false =>
    cases depth with
    | zero => exact Or.inl (Or.inr (Or.inl rfl))
    | succ d =>
      by_cases hm : e.game.moves s = []
      · exact Or.inl (Or.inr (Or.inr hm))
      · exact Or.inr ⟨d, rfl, rfl, hm⟩

private theorem leaf_of_stops {e : Search σ μ} {depth : Nat} {s : σ} (h : e.Stops (depth + 1) s) :
    (e.game.terminal s || (e.game.moves s).isEmpty) = true := by
  rcases h with h | h | h
  · simp [h]
  · cases h
  · simp [h]

theorem minimax_of_stops {e : Search σ μ} {depth : Nat} {s : σ} (h : e.Stops depth s) :
    e.minimax depth s = e.score s := by
  cases depth with
  | zero => rfl
  | succ depth => rw [minimax, if_pos (leaf_of_stops h)]

theorem optimal_of_stops {e : Search σ μ} {depth : Nat} {s : σ} (h : e.Stops depth s) : e.optimal depth s = none := by
  cases depth with
  | zero => rfl
  | succ depth =>
    rcases h with h | h | h
    · rw [optimal, if_pos h]
    · cases h
    · rw [optimal, h]; split <;> rfl

theorem result_value_of_stops {e : Search σ μ} {depth : Nat} {s : σ} (h : e.Stops depth s) (w : Window) :
    (e.value depth s w).result = .ok (e.score s) := by
  cases depth with
  | zero => rw [value]; split <;> rfl
  | succ depth => rw [value, if_pos (leaf_of_stops h)]; rfl

theorem result_choose_of_stops {e : Search σ μ} {depth : Nat} {s : σ} (h : e.Stops depth s) :
    (e.choose s depth).result = .ok (none, e.score s) := by
  cases depth with
  | zero => simp only [choose]; split <;> rfl
  | succ depth => simp only [choose]; rw [if_pos (leaf_of_stops h)]; rfl

theorem result_value_succ {e : Search σ μ} {s : σ} (hs : e.game.terminal s = false) (hm : e.game.moves s ≠ [])
    (depth : Nat) (w : Window) :
    (e.value (depth + 1) s w).result =
      (scan e.config.pruning (e.game.turn s) (e.visit depth s) (e.game.turn s).worst w (e.game.moves s)).result := by
  rw [value, if_neg (by simpa [hs] using hm)]
  rfl

theorem result_choose_succ {e : Search σ μ} {s : σ} (hs : e.game.terminal s = false) (hm : e.game.moves s ≠ [])
    (depth : Nat) :
    (e.choose s (depth + 1)).result =
      (pick e.config.pruning (e.game.turn s) (e.visit depth s) (none, (e.game.turn s).worst) .full
        (e.game.moves s)).result := by
  simp only [choose]
  rw [if_neg (by simpa [hs] using hm)]
  rfl

/-! ### The root and the other nodes -/

/-- Keeping the move beside its score does not change the scan. -/
theorem snd_pick (prune : Bool) (side : Side) (visit : μ → Window → Counted Float) (best : Option μ × Float)
    {w : Window} (hw : w.IsNumeric) (ms : List μ) :
    Prod.snd <$> pick prune side visit best w ms = scan prune side visit best.2 w ms := by
  induction ms generalizing best w with
  | nil => rfl
  | cons m ms ih =>
    simp only [pick, scan, map_bind]
    congr 1
    funext v
    have hbest : (if side.prefers v best.2 = true then (some m, v) else best).2 = side.better best.2 v := by
      unfold Side.better; split <;> rfl
    -- the window stays one of numbers, so that tightening it is narrowing it
    rw [hbest, Window.tighten_eq_narrow hw]
    split
    · simp only [map_bind, map_pure, hbest]
    · rw [ih _ (hw.narrow side _), hbest]

/-- The root is searched as any other position is, only that it is not counted. -/
theorem value_eq_choose (e : Search σ μ) (depth : Nat) (s : σ) :
    e.value depth s .full = Counted.count .node >>= fun _ => Prod.snd <$> e.choose s depth := by
  cases depth with
  | zero =>
    rw [value]
    simp only [choose]
    congr 1
    funext _
    split <;> rfl
  | succ depth =>
    rw [value]
    simp only [choose]
    congr 1
    funext _
    split
    · rfl
    · exact (snd_pick _ _ _ (none, _) Window.isNumeric_full _).symm

theorem result_value_full (e : Search σ μ) (depth : Nat) (s : σ) :
    (e.value depth s .full).result = (e.choose s depth).result.map Prod.snd := by
  rw [value_eq_choose, Counted.result_count_bind, Counted.result_map]

theorem tally_value_full (e : Search σ μ) (depth : Nat) (s : σ) :
    (e.value depth s .full).tally = .node + (e.choose s depth).tally := by
  rw [value_eq_choose, Counted.tally_count_bind, Counted.tally_map]

theorem result_value_of_choose {e : Search σ μ} {s : σ} {depth : Nat} {r : Option μ × Float}
    (h : (e.choose s depth).result = .ok r) : (e.value depth s .full).result = .ok r.2 := by
  rw [result_value_full, h]
  rfl

/-- Whatever has been counted before, the search from the root and the recursion in the full window end with the same
value or the same error, and with the same tally but for one position more. -/
theorem value_full_agrees_choose (e : Search σ μ) (depth : Nat) (s : σ) (before : Tally) :
    let inner := Counted.count before >>= fun _ => e.value depth s .full
    let root := Counted.count before >>= fun _ => e.choose s depth
    inner.result = root.result.map Prod.snd ∧ inner.tally.nodes = root.tally.nodes + 1 ∧
      inner.tally.cutoffs = root.tally.cutoffs ∧ inner.tally.horizon = root.tally.horizon := by
  intro inner root
  have hresult : inner.result = root.result.map Prod.snd := by
    rw [Counted.result_count_bind, Counted.result_count_bind, result_value_full]
  have htally : inner.tally = before + (.node + (e.choose s depth).tally) := by
    rw [Counted.tally_count_bind, tally_value_full]
  have hroot : root.tally = before + (e.choose s depth).tally := Counted.tally_count_bind _ _
  rw [htally, hroot]
  refine ⟨hresult, ?_, ?_, ?_⟩
  · show before.nodes + (1 + (e.choose s depth).tally.nodes) = before.nodes + (e.choose s depth).tally.nodes + 1
    omega
  · show before.cutoffs + (0 + (e.choose s depth).tally.cutoffs) = before.cutoffs + (e.choose s depth).tally.cutoffs
    omega
  · simp only [Tally.add_horizon]
    rfl

/-! ### The value of a node from the values after its moves -/

theorem valueAfter_of_step {e : Search σ μ} {s t : σ} {m : μ} (h : e.game.step s m = .ok t) (depth : Nat) :
    e.valueAfter depth s m = e.minimax depth t := by
  rw [valueAfter, h]

private theorem map_children (e : Search σ μ) {depth : Nat} {s : σ} (hs : e.game.terminal s = false)
    (h : e.game.Sound (depth + 1) s) :
    (e.game.children s).map (e.minimax depth) = (e.game.moves s).map (e.valueAfter depth s) := by
  rw [Game.sound_succ hs] at h
  rw [Game.children, if_neg (by simp [hs])]
  generalize e.game.moves s = ms at h
  induction ms with
  | nil => rfl
  | cons m ms ih =>
    obtain ⟨t, ht, -⟩ := h m (List.mem_cons_self ..)
    have htail := ih fun m' hm' => h m' (List.mem_cons_of_mem _ hm')
    have hhead : (e.game.step s m).toOption = some t := by rw [ht]; rfl
    rw [List.filterMap_cons_some (f := fun m => (e.game.step s m).toOption) hhead, List.map_cons, List.map_cons,
      htail, valueAfter_of_step ht]

theorem minimax_succ {e : Search σ μ} {depth : Nat} {s : σ} (hs : e.game.terminal s = false)
    (hm : e.game.moves s ≠ []) (h : e.game.Sound (depth + 1) s) :
    e.minimax (depth + 1) s = (e.game.turn s).best ((e.game.moves s).map (e.valueAfter depth s)) := by
  rw [minimax, if_neg (by simpa [hs] using hm), map_children e hs h]

/-- What is kept after all moves: the first optimal move, with the value of the position. -/
theorem foldl_keep_valueAfter {e : Search σ μ} {depth : Nat} {s : σ} (hs : e.game.terminal s = false)
    (hm : e.game.moves s ≠ []) (h : e.game.Sound (depth + 1) s) :
    (e.game.moves s).foldl ((e.game.turn s).keep (e.valueAfter depth s)) (none, (e.game.turn s).worst) =
      (e.optimal (depth + 1) s, e.minimax (depth + 1) s) := by
  have hw := (e.game.turn s).isNaN_worst
  have hval : e.minimax (depth + 1) s =
      ((e.game.moves s).foldl ((e.game.turn s).keep (e.valueAfter depth s)) (none, (e.game.turn s).worst)).2 := by
    rw [minimax_succ hs hm h, Side.best_eq_foldl, Side.foldl_keep_snd]
  refine Prod.ext ?_ hval.symm
  rw [optimal, if_neg (by simp [hs])]
  rcases Side.foldl_keep _ (e.valueAfter depth s) (e.game.moves s) (none, (e.game.turn s).worst) hw with
    ⟨hf, hall⟩ | ⟨before, m, after, hms, hf, hp, hbef, -⟩
  · rw [hf]
    symm
    rw [List.find?_eq_none]
    intro m hm
    simp [hall m hm]
  · rw [hf] at hval ⊢
    rw [hval]
    symm
    rw [List.find?_eq_some_iff_append]
    have hn := (Side.prefers_iff.mp hp).1
    have hself : (e.valueAfter depth s m == e.valueAfter depth s m) = true := Score.beq_iff.mpr ⟨hn, hn, rfl⟩
    refine ⟨by rw [hself, hp]; rfl, before, after, hms, ?_⟩
    intro u hu
    have hne : (e.valueAfter depth s u == e.valueAfter depth s m) = false := by
      rw [Bool.eq_false_iff, ne_eq, Score.beq_iff]
      rintro ⟨hun, -, heq⟩
      have hlt := (hbef u hu).resolve_left (by rw [hun]; exact Bool.false_ne_true)
      have := (Side.prefers_iff.mp hlt).2.2
      cases hside : e.game.turn s <;> simp only [hside, Side.rank] at this <;> omega
    simp [hne]

/-! ### The search without pruning -/

section

variable {visit : μ → Window → Counted Float} {val : μ → Float} {ms : List μ}

private theorem pick_exhaustive (side : Side) (h : ∀ m ∈ ms, ∀ w, (visit m w).result = .ok (val m))
    (best : Option μ × Float) (w : Window) :
    (pick false side visit best w ms).result = .ok (ms.foldl (side.keep val) best) := by
  induction ms generalizing best w with
  | nil => rfl
  | cons m ms ih =>
    have hm := h m (List.mem_cons_self ..) w
    have htail := ih fun m' hm' => h m' (List.mem_cons_of_mem _ hm')
    rw [pick, Counted.result_bind, hm]
    exact htail _ _

private theorem scan_exhaustive (side : Side) (h : ∀ m ∈ ms, ∀ w, (visit m w).result = .ok (val m)) (best : Float)
    (w : Window) : (scan false side visit best w ms).result = .ok ((ms.map val).foldl side.better best) := by
  induction ms generalizing best w with
  | nil => rfl
  | cons m ms ih =>
    have hm := h m (List.mem_cons_self ..) w
    have htail := ih fun m' hm' => h m' (List.mem_cons_of_mem _ hm')
    rw [scan, Counted.result_bind, hm]
    exact htail _ _

/-- Every move is visited if the scan without pruning comes to an end. -/
private theorem visit_of_scan {side : Side} {best r : Float} {w : Window}
    (h : (scan false side visit best w ms).result = .ok r) : ∀ m ∈ ms, ∃ w v, (visit m w).result = .ok v := by
  induction ms generalizing best w with
  | nil => simp
  | cons m ms ih =>
    rw [scan, Counted.result_bind] at h
    cases hm : (visit m w).result with
    | error err => rw [hm] at h; cases h
    | ok v =>
      rw [hm] at h
      intro m' hm'
      rcases List.mem_cons.mp hm' with rfl | hm'
      · exact ⟨w, v, hm⟩
      · exact ih h m' hm'

end

/-- In a sound tree the search without pruning finds the value of the position. -/
theorem value_exhaustive {e : Search σ μ} (hp : e.config.pruning = false) {depth : Nat} {s : σ}
    (h : e.game.Sound depth s) (w : Window) : (e.value depth s w).result = .ok (e.minimax depth s) := by
  induction depth generalizing s w with
  | zero => exact result_value_of_stops (Or.inr (Or.inl rfl)) w
  | succ depth ih =>
    rcases e.stops_or (depth + 1) s with hstop | ⟨d, hd, hs, hm⟩
    · rw [result_value_of_stops hstop, minimax_of_stops hstop]
    · obtain rfl := Nat.succ.inj hd
      rw [result_value_succ hs hm, hp, minimax_succ hs hm h, Side.best_eq_foldl]
      refine scan_exhaustive _ ?_ _ _
      intro m hmem w
      obtain ⟨t, ht, hsound⟩ := (Game.sound_succ hs).mp h m hmem
      rw [result_visit ht, valueAfter_of_step ht]
      exact ih hsound w

/-- At the root the search without pruning finds the first optimal move and the value. -/
theorem choose_exhaustive {e : Search σ μ} (hp : e.config.pruning = false) {depth : Nat} {s : σ}
    (h : e.game.Sound depth s) : (e.choose s depth).result = .ok (e.optimal depth s, e.minimax depth s) := by
  rcases e.stops_or depth s with hstop | ⟨d, rfl, hs, hm⟩
  · rw [result_choose_of_stops hstop, minimax_of_stops hstop, optimal_of_stops hstop]
  · rw [result_choose_succ hs hm, hp, ← foldl_keep_valueAfter hs hm h]
    refine pick_exhaustive _ ?_ _ _
    intro m hmem w
    obtain ⟨t, ht, hsound⟩ := (Game.sound_succ hs).mp h m hmem
    rw [result_visit ht, valueAfter_of_step ht]
    exact value_exhaustive hp hsound w

/-! ### A result means that no move was refused -/

theorem step_of_visit {e : Search σ μ} {depth : Nat} {s : σ} {m : μ} {w : Window} {v : Float}
    (h : (e.visit depth s m w).result = .ok v) :
    ∃ t, e.game.step s m = .ok t ∧ (e.value depth t w).result = .ok v := by
  cases ht : e.game.step s m with
  | ok t => exact ⟨t, rfl, by rw [← h, result_visit ht]⟩
  | error err =>
    rw [visit, Counted.result_bind, play, Counted.result_ofExcept, ht] at h
    cases h

theorem sound_of_value {e : Search σ μ} (hp : e.config.pruning = false) {depth : Nat} {s : σ} {w : Window} {r : Float}
    (h : (e.value depth s w).result = .ok r) : e.game.Sound depth s := by
  induction depth generalizing s w r with
  | zero => exact Game.sound_zero _ _
  | succ depth ih =>
    cases hs : e.game.terminal s with
    | true => exact Game.sound_of_terminal hs _
    | false =>
      rw [Game.sound_succ hs]
      by_cases hm : e.game.moves s = []
      · simp [hm]
      · rw [result_value_succ hs hm, hp] at h
        intro m hmem
        obtain ⟨w, v, hv⟩ := visit_of_scan h m hmem
        obtain ⟨t, ht, hval⟩ := step_of_visit hv
        exact ⟨t, ht, ih hval⟩

theorem sound_of_choose {e : Search σ μ} (hp : e.config.pruning = false) {depth : Nat} {s : σ}
    {r : Option μ × Float} (h : (e.choose s depth).result = .ok r) : e.game.Sound depth s :=
  sound_of_value hp (result_value_of_choose h)

end Search

/-- An answer found without pruning means that no move was refused. -/
theorem Engine.sound_of_bestMove {e : Engine σ μ} {s : σ} {depth : Nat} {r : Option μ × Float}
    (h : ((e.withPruning false).bestMove s depth).1 = .ok r) : e.game.Sound depth s := by
  rw [bestMove_of_check (check_of_bestMove h)] at h
  exact Search.sound_of_choose (e := (e.withPruning false).toSearch) rfl h

end TreeSearch
