import TreeSearch.Proofs.Game.FullDepth
import TreeSearch.Proofs.Game.Run
import TreeSearch.Proofs.TicTacToe.Rules

/-!
# What a searching player secures

A player that searches to the end of the game never falls below the value that it sees at the beginning.

* `Table.Consults`: whatever has happened, the player of a side answers as a given engine does.
* (rules) `Table.answers_of_consults`: such a player keeps to the rules while its opponent does.
* (whole game) `Table.Arises.rank_le`: no position of the game is worth less to the side than the first one.
* (end) `Engine.play_secures_value`: the game is finished, with at least the value for the searching side, and with
  exactly the value if both sides search.
-/

namespace TreeSearch

variable {σ μ : Type}

namespace Table

variable {ι κ : Type} {t : Table σ μ ι κ} {g : Game σ μ} {s₀ : σ} {i₀ : ι} {k₀ : κ} {side : Side} {e : Engine σ μ}
  {n : Nat}

/-- During the game the player of `side` answers as the engine `e` does. -/
def Consults (t : Table σ μ ι κ) (g : Game σ μ) (s₀ : σ) (i₀ : ι) (k₀ : κ) (side : Side) (e : Engine σ μ) : Prop :=
  ∀ s i k, t.Arises g s₀ i₀ k₀ s i k → (t.ask side s i k).1 = (e.bestMove s e.config.maxDepth).1.map Prod.fst

private theorem Consults.exists_move (h : t.Consults g s₀ i₀ k₀ side e) (he : e.Covers g n) {s : σ} {i : ι} {k : κ}
    (ha : t.Arises g s₀ i₀ k₀ s i k) (hs : g.Honest s) (hn : g.EndsWithin n s) (ht : g.terminal s = false) :
    ∃ m ∈ g.moves s, (t.ask side s i k).1 = .ok (some m) ∧
      ∀ next, g.step s m = .ok next → Score.rank (e.worth next) = Score.rank (e.worth s) := by
  obtain ⟨m, hm, hbest, hrank⟩ := he.exists_bestMove hs hn ht
  refine ⟨m, hm, ?_, hrank⟩
  rw [h s i k ha, hbest]
  rfl

/-- If each player keeps to the rules or consults an engine, then both keep to the rules. -/
theorem answers_of_consults (hs₀ : g.Honest s₀) (hn : g.EndsWithin n s₀)
    (h : ∀ side, (t.Answers g s₀ i₀ k₀ side fun s m => m ∈ g.moves s) ∨
      ∃ e : Engine σ μ, e.Covers g n ∧ t.Consults g s₀ i₀ k₀ side e) :
    ∀ side, t.Answers g s₀ i₀ k₀ side fun s m => m ∈ g.moves s := by
  refine answers_of_reaches ?_
  intro s i k ha hr ht
  rcases h (g.turn s) with hlegal | ⟨e, he, hown⟩
  · obtain ⟨m, hans, hm⟩ := hlegal s i k ha ht rfl
    exact ⟨m, hm, hans⟩
  · obtain ⟨m, hm, hans, -⟩ := hown.exists_move he ha (hs₀.of_reaches hr) (hn.of_reaches hr) ht
    exact ⟨m, hm, hans⟩

/-- For the side that consults the engine, no position is worth less than the first one. -/
theorem Arises.rank_le (he : e.Covers g n) (hs₀ : g.Honest s₀) (hn : g.EndsWithin n s₀)
    (hown : t.Consults g s₀ i₀ k₀ side e) (hlegal : ∀ side, t.Answers g s₀ i₀ k₀ side fun s m => m ∈ g.moves s)
    {s : σ} {i : ι} {k : κ} (h : t.Arises g s₀ i₀ k₀ s i k) : side.rank (e.worth s₀) ≤ side.rank (e.worth s) := by
  induction h with
  | start => exact Int.le_refl _
  | @step s i k m next i' k' h ht hask hstep ih =>
    have hreach := h.reaches_of_answers hlegal
    have hs := hs₀.of_reaches hreach
    have hn := hn.of_reaches hreach
    refine Int.le_trans ih ?_
    by_cases hturn : g.turn s = side
    · -- the engine answers, and its move keeps the worth
      obtain ⟨m', -, hm, hrank⟩ := hown.exists_move he h hs hn ht
      rw [← hturn, hask] at hm
      obtain rfl : m = m' := by simpa using hm
      have := hrank next hstep
      cases side <;> simp only [Side.rank] <;> omega
    · -- any other legal move of the opponent is no better for it than its best one
      obtain ⟨m', hm, hm'⟩ := hlegal (g.turn s) s i k h ht rfl
      rw [hask] at hm
      obtain rfl : m = m' := by simpa using hm
      exact he.rank_le_of_legal hs hn ht (Side.eq_opponent_of_ne hturn) hm' hstep

/-- The game is finished, and what the engine saw at the beginning is secured. -/
private theorem play_secures (he : e.Covers g n) (hs₀ : g.Honest s₀) (hn : g.EndsWithin n s₀)
    (hown : t.Consults g s₀ i₀ k₀ side e) (hlegal : ∀ side, t.Answers g s₀ i₀ k₀ side fun s m => m ∈ g.moves s)
    {limit : Nat} (hl : n ≤ limit) :
    t.Finishes g limit s₀ i₀ k₀ fun u =>
      side.rank (e.worth s₀) ≤ side.rank (g.terminalScore u e.config.winScore) := by
  obtain ⟨r, u, hr, hout, hu, i, k, hau⟩ := play_ends hlegal hs₀ hn .start hl
  have hrank := hau.rank_le he hs₀ hn hown hlegal
  rw [he.worth_of_terminal hu] at hrank
  exact ⟨r, u, hr, hout, hu, hrank⟩

/-! ### Searching players -/

/-- A searching player answers as its engine, of which only the tally changes. -/
private theorem searching_choose (name : String) (e : Engine σ μ) (s : σ) :
    ((Player.searching name).choose s e).1 = (e.bestMove s e.config.maxDepth).1.map Prod.fst ∧
      ((Player.searching name).choose s e).2.toSearch = e.toSearch :=
  ⟨rfl, e.toSearch_bestMove s _⟩

private theorem consults_plus (name : String) (opponent : Player κ σ μ) (g : Game σ μ) (s₀ : σ) (e : Engine σ μ)
    (k₀ : κ) : Consults ⟨.searching name, opponent⟩ g s₀ e k₀ .plus e := by
  intro s i k h
  have hi : i.toSearch = e.toSearch := by
    refine h.remembers (P := fun i _ => i.toSearch = e.toSearch) rfl ?_
    intro side s i k hi
    cases side
    · exact (searching_choose name i s).2.trans hi
    · exact hi
  show ((Player.searching name).choose s i).1 = _
  rw [(searching_choose name i s).1, hi]
  exact congrArg _ (Engine.bestMove_congr hi s _)

private theorem consults_minus (name : String) (opponent : Player ι σ μ) (g : Game σ μ) (s₀ : σ) (i₀ : ι)
    (e : Engine σ μ) : Consults ⟨opponent, .searching name⟩ g s₀ i₀ e .minus e := by
  intro s i k h
  have hk : k.toSearch = e.toSearch := by
    refine h.remembers (P := fun _ k => k.toSearch = e.toSearch) rfl ?_
    intro side s i k hk
    cases side
    · exact hk
    · exact (searching_choose name k s).2.trans hk
  show ((Player.searching name).choose s k).1 = _
  rw [(searching_choose name k s).1, hk]
  exact congrArg _ (Engine.bestMove_congr hk s _)

/-- Two searching players end with exactly what each of them saw at the beginning. -/
private theorem play_secures_exactly {e' : Engine σ μ} (he : e.Covers g n) (he' : e'.Covers g n) (hs₀ : g.Honest s₀)
    (hn : g.EndsWithin n s₀) (name name' : String) {limit : Nat} (hl : n ≤ limit) :
    Finishes ⟨.searching name, .searching name'⟩ g limit s₀ e e' fun u =>
      g.terminalScore u e.config.winScore = e.worth s₀ ∧ g.terminalScore u e'.config.winScore = e'.worth s₀ := by
  have hplus := consults_plus name (.searching name') g s₀ e e'
  have hminus := consults_minus name' (.searching name) g s₀ e e'
  have hlegal := answers_of_consults hs₀ hn fun side => Or.inr <| match side with
    | .plus => ⟨e, he, hplus⟩
    | .minus => ⟨e', he', hminus⟩
  refine ((play_secures he hs₀ hn hplus hlegal hl).and (play_secures he' hs₀ hn hminus hlegal hl)).imp ?_
  intro u ⟨hlow, hhigh⟩
  have hw := Config.worth_of_check he.check
  have hw' := Config.worth_of_check he'.check
  have hb := g.lead_bounds u
  obtain ⟨l, hl, hv, hv'⟩ := he.sameRung he' hs₀ hn
  simp only [hv, hv', Game.terminalScore_eq_ladder, Side.rank] at hlow hhigh ⊢
  -- the final position can be neither below nor above the rung that both engines see
  have h1 := mt (Score.rank_ladder_lt_iff hw (k := g.lead u) (l := l) (by omega) hl).mpr (by omega)
  have h2 := mt (Score.rank_ladder_lt_iff hw' (k := l) (l := g.lead u) hl (by omega)).mpr (by omega)
  obtain rfl : g.lead u = l := by omega
  exact ⟨rfl, rfl⟩

end Table

/-- A player that takes the first legal move, if there is one. -/
def Player.firstLegal (g : Game σ μ) : Player Unit σ μ where
  name := "first"
  choose s k := (.ok (g.moves s).head?, k)

namespace Engine

/-- An engine that looks far enough secures the value it finds against every opponent that keeps to the rules. -/
theorem play_secures_value {e : Engine σ μ} {g : Game σ μ} {n : Nat} {s₀ : σ} (hs₀ : g.Honest s₀)
    (hn : g.EndsWithin n s₀) (he : e.Covers g n) :
    ∃ m v, (e.bestMove s₀ e.config.maxDepth).1 = .ok (m, v) ∧
      (∀ (κ : Type) (name : String) (opponent : Player κ σ μ) (k₀ : κ),
        Table.Answers ⟨.searching name, opponent⟩ g s₀ e k₀ .minus (fun s m => m ∈ g.moves s) →
        ∀ limit ≥ n, Table.Finishes ⟨.searching name, opponent⟩ g limit s₀ e k₀ fun u =>
          v ≤ g.terminalScore u e.config.winScore) ∧
      (∀ (ι : Type) (name : String) (opponent : Player ι σ μ) (i₀ : ι),
        Table.Answers ⟨opponent, .searching name⟩ g s₀ i₀ e .plus (fun s m => m ∈ g.moves s) →
        ∀ limit ≥ n, Table.Finishes ⟨opponent, .searching name⟩ g limit s₀ i₀ e fun u =>
          g.terminalScore u e.config.winScore ≤ v) ∧
      (∀ (e' : Engine σ μ) (name name' : String), e'.Covers g n → ∀ limit ≥ n,
        (Table.Finishes ⟨.searching name, .searching name'⟩ g limit s₀ e e' fun u =>
          g.terminalScore u e.config.winScore = v) ∧
        (Table.Finishes ⟨.searching name', .searching name⟩ g limit s₀ e' e fun u =>
          g.terminalScore u e.config.winScore = v)) := by
  have hw := Config.worth_of_check he.check
  have hv := (Score.isFinite_iff.mp (he.isFinite_worth hs₀)).1
  have hu (u : σ) := (Score.isFinite_iff.mp (g.isFinite_terminalScore u hw)).1
  refine ⟨_, _, he.bestMove_eq hs₀, ?_, ?_, ?_⟩
  · intro κ name opponent k₀ hopp limit hl
    have hown := Table.consults_plus name opponent g s₀ e k₀
    have hlegal := Table.answers_of_consults hs₀ hn fun side => match side with
      | .plus => Or.inr ⟨e, he, hown⟩
      | .minus => Or.inl hopp
    refine (Table.play_secures he hs₀ hn hown hlegal hl).imp ?_
    intro u hrank
    exact Score.le_iff.mpr ⟨hv, hu u, hrank⟩
  · intro ι name opponent i₀ hopp limit hl
    have hown := Table.consults_minus name opponent g s₀ i₀ e
    have hlegal := Table.answers_of_consults hs₀ hn fun side => match side with
      | .plus => Or.inl hopp
      | .minus => Or.inr ⟨e, he, hown⟩
    refine (Table.play_secures he hs₀ hn hown hlegal hl).imp ?_
    intro u hrank
    exact Score.le_iff.mpr ⟨hu u, hv, Int.neg_le_neg_iff.mp hrank⟩
  · intro e' name name' he' limit hl
    constructor
    · exact (Table.play_secures_exactly he he' hs₀ hn name name' hl).imp fun u h => h.1
    · exact (Table.play_secures_exactly he' he hs₀ hn name' name hl).imp fun u h => h.2

theorem play_secures_value_threeFree :
    ∃ m v, (TicTacToe.engine.bestMove .threeFree 9).1 = .ok (m, v) ∧
      (Table.Finishes ⟨.searching "search", .firstLegal TicTacToe.game⟩ TicTacToe.game 3 .threeFree
        TicTacToe.engine () fun u => v ≤ TicTacToe.game.terminalScore u 10) ∧
      (Table.Finishes ⟨.searching "plus", .searching "minus"⟩ TicTacToe.game 3 .threeFree
        TicTacToe.engine TicTacToe.engine fun u => TicTacToe.game.terminalScore u 10 = v) := by
  have hcovers : TicTacToe.engine.Covers TicTacToe.game 3 := ⟨rfl, rfl, rfl, by decide⟩
  obtain ⟨m, v, hbest, hplus, -, hboth⟩ :=
    play_secures_value (TicTacToe.honest .threeFree) TicTacToe.endsWithin_threeFree hcovers
  refine ⟨m, v, hbest, hplus Unit "search" _ () ?_ 3 (Nat.le_refl 3),
    (hboth TicTacToe.engine "plus" "minus" hcovers 3 (Nat.le_refl 3)).1⟩
  intro s _ _ _ hs _
  obtain ⟨m, ms, hm⟩ := List.exists_cons_of_ne_nil (TicTacToe.Position.moves_ne_nil hs)
  have hmoves : TicTacToe.game.moves s = m :: ms := hm
  exact ⟨m, by simp [Table.ask, Player.firstLegal, hmoves], by simp [hmoves]⟩

end Engine

end TreeSearch
