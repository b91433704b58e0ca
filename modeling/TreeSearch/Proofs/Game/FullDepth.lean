import TreeSearch.Proofs.Game.Contract
import TreeSearch.Proofs.Game.Outcome

/-!
# Search at full depth

An engine that looks as far as the game can go, and scores positions by their winner, knows what a position is worth
to the end.

* (deep enough) `minimax_of_endsWithin`: looking further than the game can go does not change a value.
* (there is a move) `exists_optimal`: where values are finite, an unfinished position has an optimal move.
* (one move) `Covers.exists_bestMove`, `Covers.rank_le_of_legal`: the answer of the engine keeps the worth of the
  position, and no legal move of the other side makes it worse.
* (two engines) `Covers.sameRung`: engines that differ in depth, pruning and the worth of a win see the same outcome.
-/

namespace TreeSearch

variable {σ μ : Type}

namespace Search

/-- Looking further than the game can go does not change the value. -/
theorem minimax_of_endsWithin {e : Search σ μ} {n : Nat} {s : σ} (hs : e.game.Honest s)
    (hn : e.game.EndsWithin n s) {depth : Nat} (hd : n ≤ depth) : e.minimax depth s = e.minimax n s := by
  induction n generalizing s depth with
  | zero => rw [minimax_of_terminal (hn.terminal hs), minimax_of_terminal (hn.terminal hs)]
  | succ n ih =>
    obtain ⟨depth, rfl⟩ := Nat.exists_eq_add_of_le' (Nat.le_trans (Nat.succ_pos n) hd)
    have hmap : (e.game.children s).map (e.minimax depth) = (e.game.children s).map (e.minimax n) := by
      apply List.map_congr_left
      intro t ht
      exact ih (hs.of_reaches (.of_mem_children ht)) (hn.child ht) (Nat.le_of_succ_le_succ hd)
    rw [minimax, minimax, hmap]

theorem isFinite_minimax {e : Search σ μ} (hscore : ∀ s, (e.score s).isFinite = true) {s : σ} (hs : e.game.Honest s)
    (depth : Nat) : (e.minimax depth s).isFinite = true := by
  induction depth generalizing s with
  | zero => exact hscore s
  | succ depth ih =>
    rw [minimax]
    split
    · exact hscore s
    · rename_i hleaf
      have ht : e.game.terminal s = false := by
        cases ht : e.game.terminal s
        · rfl
        · simp [ht] at hleaf
      have hfin : ∀ v ∈ (e.game.children s).map (e.minimax depth), v.isFinite = true := by
        intro v hv
        obtain ⟨t, ht, rfl⟩ := List.mem_map.mp hv
        exact ih (hs.of_reaches (.of_mem_children ht))
      obtain ⟨t, htc⟩ := List.exists_mem_of_ne_nil _ (hs.children_ne ht)
      have hmem := List.mem_map_of_mem (f := e.minimax depth) htc
      exact hfin _ (Side.best_mem_of_prefers hmem (Side.prefers_worst_of_isFinite (hfin _ hmem) _))

/-- Where the value is finite, an unfinished position has an optimal move, and the move leads to the value. -/
theorem exists_optimal {e : Search σ μ} {depth : Nat} {s : σ} (hs : e.game.Honest s) (ht : e.game.terminal s = false)
    (hfin : (e.minimax (depth + 1) s).isFinite = true) :
    ∃ m ∈ e.game.moves s, e.optimal (depth + 1) s = some m ∧
      Score.rank (e.valueAfter depth s m) = Score.rank (e.minimax (depth + 1) s) := by
  have hm := hs.moves_ne s (Game.Reaches.refl _ s) ht
  have hbest := minimax_succ ht hm (hs.sound (depth + 1))
  have hworst := Side.prefers_worst_of_isFinite hfin (e.game.turn s)
  have hmem : e.minimax (depth + 1) s ∈ (e.game.moves s).map (e.valueAfter depth s) := by
    have hne := Side.ne_worst_of_isFinite hfin (e.game.turn s)
    rw [hbest] at hne ⊢
    exact Side.best_mem hne
  obtain ⟨m, hm, hval⟩ := List.mem_map.mp hmem
  -- some move has the value, so the search for the first one finds a move, perhaps another one
  cases hopt : e.optimal (depth + 1) s with
  | none =>
    rw [optimal, if_neg (by simp [ht]), List.find?_eq_none] at hopt
    have hself : (e.minimax (depth + 1) s == e.minimax (depth + 1) s) = true :=
      Score.beq_iff.mpr ⟨(Score.isFinite_iff.mp hfin).1, (Score.isFinite_iff.mp hfin).1, rfl⟩
    exact absurd (by rw [hval, hself, hworst]; rfl) (hopt m hm)
  | some m' =>
    rw [optimal, if_neg (by simp [ht])] at hopt
    have hp := List.find?_some hopt
    rw [Bool.and_eq_true, Score.beq_iff] at hp
    exact ⟨m', List.mem_of_find?_eq_some hopt, rfl, hp.1.2.2⟩

end Search

namespace Engine

/-- The engine plays `g` to the end from positions where no line of play is longer than `n` moves: it looks that far,
and scores positions by their winner. -/
structure Covers (e : Engine σ μ) (g : Game σ μ) (n : Nat) : Prop where
  game_eq : e.game = g
  evaluator_eq : e.evaluator = g.terminalScore
  check : e.config.check = .ok ()
  le_maxDepth : n ≤ e.config.maxDepth

/-- What a position is worth to the engine at its full depth. -/
def worth (e : Engine σ μ) (s : σ) : Float := e.minimax e.config.maxDepth s

section

variable {e : Engine σ μ} {g : Game σ μ} {n : Nat} {s : σ}

theorem Covers.score_eq (h : e.Covers g n) (s : σ) : e.score s = g.terminalScore s e.config.winScore := by
  rw [Search.score, h.evaluator_eq]

theorem Covers.worth_of_terminal (h : e.Covers g n) (ht : g.terminal s = true) :
    e.worth s = g.terminalScore s e.config.winScore := by
  rw [worth, Search.minimax_of_terminal (by rw [h.game_eq, ht]), h.score_eq]

theorem Covers.isFinite_worth (h : e.Covers g n) (hs : g.Honest s) : (e.worth s).isFinite = true := by
  refine Search.isFinite_minimax ?_ (by rw [h.game_eq]; exact hs) _
  intro t
  rw [h.score_eq]
  exact g.isFinite_terminalScore t (Config.worth_of_check h.check)

theorem Covers.bestMove_eq (h : e.Covers g n) (hs : g.Honest s) :
    (e.bestMove s e.config.maxDepth).1 = .ok (e.optimal e.config.maxDepth s, e.worth s) := by
  have hsound : e.game.Sound e.config.maxDepth s := by
    rw [h.game_eq]
    exact hs.sound _
  rw [bestMove_of_check h.check, Search.choose_sound e.toSearch hsound]
  rfl

/-- An unfinished position leaves something to look at. -/
private theorem Covers.exists_maxDepth (h : e.Covers g n) (hs : g.Honest s) (hn : g.EndsWithin n s)
    (ht : g.terminal s = false) : ∃ d, e.config.maxDepth = d + 1 := by
  cases hd : e.config.maxDepth with
  | succ d => exact ⟨d, rfl⟩
  | zero =>
    have hle := h.le_maxDepth
    rw [(hn.mono (hd ▸ hle)).terminal hs] at ht
    cases ht

/-- What the position after a legal move is worth is what the engine sees in the move. -/
private theorem Covers.valueAfter_eq (h : e.Covers g n) (hs : g.Honest s) (hn : g.EndsWithin n s)
    (ht : g.terminal s = false) {m : μ} (hm : m ∈ g.moves s) {next : σ} (hstep : g.step s m = .ok next) {d : Nat}
    (hd : e.config.maxDepth = d + 1) : e.valueAfter d s m = e.worth next := by
  obtain rfl := h.game_eq
  have hchild : next ∈ e.game.children s := Game.mem_children.mpr ⟨ht, m, hm, hstep⟩
  have hnext : e.game.EndsWithin d next := (hn.mono (hd ▸ h.le_maxDepth)).child hchild
  have hhonest := hs.of_reaches (.of_mem_children hchild)
  rw [worth, hd, Search.valueAfter_of_step hstep, Search.minimax_of_endsWithin hhonest hnext (Nat.le_succ d)]

/-- The answer of the engine is a legal move that keeps the worth of the position. -/
theorem Covers.exists_bestMove (h : e.Covers g n) (hs : g.Honest s) (hn : g.EndsWithin n s)
    (ht : g.terminal s = false) :
    ∃ m ∈ g.moves s, (e.bestMove s e.config.maxDepth).1 = .ok (some m, e.worth s) ∧
      ∀ next, g.step s m = .ok next → Score.rank (e.worth next) = Score.rank (e.worth s) := by
  obtain ⟨d, hd⟩ := h.exists_maxDepth hs hn ht
  have hfin := h.isFinite_worth hs
  have hbest := h.bestMove_eq hs
  obtain rfl := h.game_eq
  rw [worth, hd] at hfin
  obtain ⟨m, hm, hopt, hrank⟩ := Search.exists_optimal hs ht hfin
  refine ⟨m, hm, ?_, ?_⟩
  · rw [hbest, hd, hopt]
  · intro next hstep
    rw [← h.valueAfter_eq hs hn ht hm hstep hd, hrank, worth, hd]

/-- No legal move of the other side makes the position worse for a side. -/
theorem Covers.rank_le_of_legal (h : e.Covers g n) (hs : g.Honest s) (hn : g.EndsWithin n s)
    (ht : g.terminal s = false) {side : Side} (hturn : g.turn s = side.opponent) {m : μ} (hm : m ∈ g.moves s)
    {next : σ} (hstep : g.step s m = .ok next) : side.rank (e.worth s) ≤ side.rank (e.worth next) := by
  obtain ⟨d, hd⟩ := h.exists_maxDepth hs hn ht
  have hval := h.valueAfter_eq hs hn ht hm hstep hd
  obtain rfl := h.game_eq
  have hnext := hs.of_reaches (.of_mem_children (Game.mem_children.mpr ⟨ht, m, hm, hstep⟩))
  have hfin := (Score.isFinite_iff.mp (h.isFinite_worth hs)).1
  have hfin' := (Score.isFinite_iff.mp (h.isFinite_worth hnext)).1
  have hbest : e.worth s = side.opponent.best ((e.game.moves s).map (e.valueAfter d s)) := by
    rw [worth, hd, ← hturn]
    exact Search.minimax_succ ht (hs.moves_ne s (Game.Reaches.refl _ s) ht) (hs.sound _)
  have hnot : side.opponent.prefers (e.worth next) (e.worth s) = false := by
    rw [hbest, ← hval]
    exact Side.not_prefers_best (List.mem_map_of_mem hm)
  rw [Side.prefers_eq_false_iff hfin' hfin] at hnot
  cases side <;> simp only [Side.opponent, Side.rank] at hnot ⊢ <;> omega

end

end Engine

/-- Two engines for one game see the same rung, whatever a win is worth to them and however far they look. -/
theorem Engine.Covers.sameRung {e e' : Engine σ μ} {g : Game σ μ} {n : Nat} (h : e.Covers g n) (h' : e'.Covers g n)
    {s : σ} (hs : g.Honest s) (hn : g.EndsWithin n s) :
    Score.SameRung e.config.winScore e'.config.winScore (e.worth s) (e'.worth s) := by
  have hg : e.game = e'.game := h.game_eq.trans h'.game_eq.symm
  have horder := Score.sameOrder_ladder (Config.worth_of_check h.check) (Config.worth_of_check h'.check)
  have hleaf : ∀ t, Score.SameRung e.config.winScore e'.config.winScore (e.score t) (e'.score t) := by
    intro t
    rw [h.score_eq, h'.score_eq]
    exact g.sameRung_terminalScore t _ _
  have hlow : e.worth s = e.minimax n s :=
    Search.minimax_of_endsWithin (by rwa [h.game_eq]) (by rwa [h.game_eq]) h.le_maxDepth
  have hlow' : e'.worth s = e'.minimax n s :=
    Search.minimax_of_endsWithin (by rwa [h'.game_eq]) (by rwa [h'.game_eq]) h'.le_maxDepth
  rw [hlow, hlow']
  exact horder.minimax hg hleaf n s

end TreeSearch
