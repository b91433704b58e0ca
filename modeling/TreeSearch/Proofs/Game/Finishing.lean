import Mathlib.Order.WellFounded
import TreeSearch.Proofs.Game.FullDepth
import TreeSearch.Proofs.Game.Run
import TreeSearch.Proofs.TicTacToe.Rules

/-!
# Games that are played to the end

Searching players and players that leave their choice to chance finish every honest game that cannot go on for ever.

* `Game.Ends s`: no line of play from `s` goes on for ever.  A position has finitely many children, so by
  `Ends.exists_endsWithin` the lines of play are then not longer than some number of moves.
* `Player.Lawful`: what a player remembers keeps a property, and with it the player answers every unfinished position
  of an honest game with a legal move.
* (search) `Engine.Serves.exists_bestMove`: an engine whose scores are finite finds a move at every depth but zero.
  Only finite scores are better than the worst one, so finiteness of all values is what makes it name a move.
* (end of the game) `Table.play_finishes`: two of the standard players finish the game.
-/

namespace TreeSearch

variable {σ μ : Type}

namespace Game

variable {g : Game σ μ} {s : σ}

/-! ### Lines of play that end -/

/-- No line of play goes on for ever. -/
def Ends (g : Game σ μ) (s : σ) : Prop :=
  ∀ line : Nat → σ, line 0 = s → ∃ k, line (k + 1) ∉ g.children (line k)

/-- Finitely many trees of bounded height have a common bound. -/
private theorem exists_common_bound {ts : List σ} (h : ∀ t ∈ ts, ∃ n, g.EndsWithin n t) :
    ∃ n, ∀ t ∈ ts, g.EndsWithin n t := by
  induction ts with
  | nil => exact ⟨0, by simp⟩
  | cons t ts ih =>
    obtain ⟨n, hn⟩ := h t (List.mem_cons_self ..)
    obtain ⟨k, hk⟩ := ih fun u hu => h u (List.mem_cons_of_mem _ hu)
    refine ⟨max n k, ?_⟩
    intro u hu
    rcases List.mem_cons.mp hu with rfl | hu
    · exact hn.mono (Nat.le_max_left n k)
    · exact (hk u hu).mono (Nat.le_max_right n k)

/-- If no line of play goes on for ever, then none is longer than some number of moves. -/
theorem Ends.exists_endsWithin (h : g.Ends s) : ∃ n, g.EndsWithin n s := by
  have hacc : Acc (fun t s => t ∈ g.children s) s := by
    by_contra hacc
    obtain ⟨line, hstart, hline⟩ := not_acc_iff_exists_descending_chain.mp hacc
    obtain ⟨k, hk⟩ := h line hstart
    exact hk (hline k)
  induction hacc with
  | intro s _ ih =>
    have hbelow : ∀ t ∈ g.children s, ∃ n, g.EndsWithin n t := by
      intro t ht
      refine ih t ht ?_
      intro line hstart
      -- an endless line from a child would be one from the position
      obtain ⟨k, hk⟩ := h (startingWith s line) rfl
      cases k with
      | zero =>
        have hfirst : line 0 ∈ g.children s := by rw [hstart]; exact ht
        exact absurd hfirst hk
      | succ k => exact ⟨k, hk⟩
    obtain ⟨n, hn⟩ := exists_common_bound hbelow
    exact ⟨n + 1, List.flatMap_eq_nil_iff.mpr hn⟩

private theorem EndsWithin.ends {n : Nat} (h : g.EndsWithin n s) : g.Ends s := by
  intro line hstart
  by_contra hline
  rw [not_exists] at hline
  have hmem : ∀ k, line k ∈ g.after k s := by
    intro k
    induction k with
    | zero => simp [after, hstart]
    | succ k ih =>
      have hchild : line (k + 1) ∈ g.children (line k) := by simpa using hline k
      rw [after_add]
      exact List.mem_flatMap.mpr ⟨line k, ih, by simpa [after] using hchild⟩
  have hlast := hmem (n + 1)
  rw [h] at hlast
  exact absurd hlast List.not_mem_nil

end Game

/-! ### Engines that always find a move -/

namespace Engine

/-- The engine searches `g` with settings that pass the check, and its scores are finite. -/
structure Serves (e : Engine σ μ) (g : Game σ μ) : Prop where
  game_eq : e.game = g
  check : e.config.check = .ok ()
  isFinite_score : ∀ s, (e.score s).isFinite = true

/-- Where the rules are kept, the engine finds a legal move at every depth but zero. -/
theorem Serves.exists_bestMove {e : Engine σ μ} {g : Game σ μ} (h : e.Serves g) {s : σ} (hs : g.Honest s)
    (ht : g.terminal s = false) {depth : Nat} (hd : 1 ≤ depth) :
    ∃ m ∈ g.moves s, ∃ v, (e.bestMove s depth).1 = .ok (some m, v) := by
  obtain ⟨d, rfl⟩ := Nat.exists_eq_add_of_le' hd
  obtain rfl := h.game_eq
  have hfin := Search.isFinite_minimax h.isFinite_score hs (d + 1)
  obtain ⟨m, hm, hopt, -⟩ := Search.exists_optimal hs ht hfin
  refine ⟨m, hm, e.minimax (d + 1) s, ?_⟩
  rw [bestMove_of_check h.check, Search.choose_sound e.toSearch (hs.sound _), hopt]

/-- An engine that covers a game serves it, since scores by the winner are finite. -/
private theorem Covers.serves {e : Engine σ μ} {g : Game σ μ} {n : Nat} (h : e.Covers g n) : e.Serves g where
  game_eq := h.game_eq
  check := h.check
  isFinite_score s := by
    rw [h.score_eq]
    exact g.isFinite_terminalScore s (Config.worth_of_check h.check)

end Engine

/-! ### Players that keep to the rules -/

namespace Player

variable {ι : Type}

/-- What the player remembers keeps `I`, and as long as it does, the player has a legal move for every unfinished
position of an honest game. -/
structure Lawful (p : Player ι σ μ) (g : Game σ μ) (I : ι → Prop) : Prop where
  keeps : ∀ s i, I i → I (p.choose s i).2
  legal : ∀ s i, I i → g.Honest s → g.terminal s = false → ∃ m ∈ g.moves s, (p.choose s i).1 = .ok (some m)

/-- A player that has a move drawn from the legal ones, and remembers the source `ρ` of chance. -/
def drawing {ρ : Type} (name : String) (g : Game σ μ) (draw : ρ → List μ → Option μ × ρ) : Player ρ σ μ where
  name
  choose s r :=
    let (m, r) := draw r (g.moves s)
    (.ok m, r)

/-- Something is drawn from every list that is not empty. -/
def Draws {ρ : Type} (draw : ρ → List μ → Option μ × ρ) : Prop := ∀ r ms, ms ≠ [] → ∃ m ∈ ms, (draw r ms).1 = some m

/-- The random player draws with the generator that it remembers. -/
private theorem random_eq_drawing (name : String) (g : Game σ μ) :
    random name g = drawing name g Random.Generator.pick := rfl

private theorem draws_pick : Draws (μ := μ) Random.Generator.pick := fun r _ hms => r.pick_isSome hms

/-- The standard players of a game, with what they remember at the beginning. -/
inductive Standard (g : Game σ μ) : {ι : Type} → Player ι σ μ → ι → Prop
  | searching (name : String) {e : Engine σ μ} (he : e.Serves g) (hd : 1 ≤ e.config.maxDepth) :
      Standard g (.searching name) e
  | drawing (name : String) {ρ : Type} {draw : ρ → List μ → Option μ × ρ} (hdraw : Draws draw) (r : ρ) :
      Standard g (.drawing name g draw) r

private theorem standard_random (name : String) (g : Game σ μ) (r : Random.Generator) :
    Standard g (.random name g) r := by
  rw [random_eq_drawing]
  exact .drawing name draws_pick r

private theorem lawful_searching (name : String) {e : Engine σ μ} {g : Game σ μ} (he : e.Serves g)
    (hd : 1 ≤ e.config.maxDepth) : (searching name).Lawful g fun i : Engine σ μ => i.toSearch = e.toSearch where
  keeps s i hi := (i.toSearch_bestMove s _).trans hi
  legal s i hi hs ht := by
    obtain ⟨m, hm, v, hbest⟩ := he.exists_bestMove hs ht hd
    refine ⟨m, hm, ?_⟩
    show (i.bestMove s i.config.maxDepth).1.map Prod.fst = _
    rw [hi, Engine.bestMove_congr hi, hbest]
    rfl

private theorem lawful_drawing (name : String) {ρ : Type} (g : Game σ μ) {draw : ρ → List μ → Option μ × ρ}
    (hdraw : Draws draw) : (drawing name g draw).Lawful g fun _ => True where
  keeps _ _ _ := trivial
  legal s r _ hs ht := by
    obtain ⟨m, hm, hpick⟩ := hdraw r (g.moves s) (hs.moves_ne s (.refl g s) ht)
    exact ⟨m, hm, congrArg Except.ok hpick⟩

private theorem Standard.exists_lawful {g : Game σ μ} {p : Player ι σ μ} {i : ι} (h : p.Standard g i) :
    ∃ I, p.Lawful g I ∧ I i := by
  cases h with
  | searching name he hd => exact ⟨_, lawful_searching name he hd, rfl⟩
  | drawing name hdraw r => exact ⟨_, lawful_drawing name g hdraw, trivial⟩

end Player

/-! ### The whole game -/

namespace Table

variable {ι κ : Type} {t : Table σ μ ι κ} {g : Game σ μ} {s₀ : σ} {i₀ : ι} {k₀ : κ}

/-- Two lawful players answer with legal moves as long as the game goes on. -/
private theorem answers_of_lawful {I : ι → Prop} {K : κ → Prop} (hplus : t.plus.Lawful g I)
    (hminus : t.minus.Lawful g K)
    (hi : I i₀) (hk : K k₀) (hs₀ : g.Honest s₀) : ∀ side, t.Answers g s₀ i₀ k₀ side fun s m => m ∈ g.moves s := by
  refine answers_of_reaches ?_
  intro s i k ha hr ht
  obtain ⟨hi, hk⟩ : I i ∧ K k := by
    refine ha.remembers (P := fun i k => I i ∧ K k) ⟨hi, hk⟩ ?_
    rintro side s i k ⟨hi, hk⟩
    cases side with
    | plus => exact ⟨hplus.keeps s i hi, hk⟩
    | minus => exact ⟨hi, hminus.keeps s k hk⟩
  have hs := hs₀.of_reaches hr
  cases g.turn s with
  | plus => exact hplus.legal s i hi hs ht
  | minus => exact hminus.legal s k hk hs ht

/-- Standard players finish every honest game without endless lines, each after as many requests as some number that
the game alone decides; and wherever the game may come to, an engine whose scores are finite finds a legal move. -/
theorem play_finishes (hs₀ : g.Honest s₀) (hends : g.Ends s₀) :
    (∃ n, ∀ {ι κ : Type} (t : Table σ μ ι κ) (i₀ : ι) (k₀ : κ), t.plus.Standard g i₀ → t.minus.Standard g k₀ →
      ∀ limit ≥ n, t.Finishes g limit s₀ i₀ k₀ fun u => g.Reaches s₀ u) ∧
    ∀ e : Engine σ μ, e.Serves g → ∀ s, g.Reaches s₀ s → g.terminal s = false → ∀ depth ≥ 1,
      ∃ m ∈ g.moves s, ∃ v, (e.bestMove s depth).1 = .ok (some m, v) := by
  constructor
  · obtain ⟨n, hn⟩ := hends.exists_endsWithin
    refine ⟨n, ?_⟩
    intro ι κ t i₀ k₀ hplus hminus limit hl
    obtain ⟨I, hI, hi⟩ := hplus.exists_lawful
    obtain ⟨K, hK, hk⟩ := hminus.exists_lawful
    have hans := answers_of_lawful hI hK hi hk hs₀
    refine (play_ends hans hs₀ hn .start hl).imp ?_
    rintro u ⟨i, k, ha⟩
    exact ha.reaches_of_answers hans
  · intro e he s hs ht depth hd
    exact he.exists_bestMove (hs₀.of_reaches hs) ht hd

/-- Search against chance, on a grid with three free cells. -/
theorem play_finishes_threeFree :
    (∃ n, ∀ limit ≥ n, Finishes ⟨.searching "search", .random "chance" TicTacToe.game⟩ TicTacToe.game limit .threeFree
      TicTacToe.engine (Random.Generator.ofSeed 7) fun u => TicTacToe.game.Reaches .threeFree u) ∧
    ∃ m ∈ TicTacToe.game.moves .threeFree, ∃ v, (TicTacToe.engine.bestMove .threeFree 1).1 = .ok (some m, v) := by
  have hserves : TicTacToe.engine.Serves TicTacToe.game :=
    Engine.Covers.serves (n := 3) ⟨rfl, rfl, rfl, by decide⟩
  obtain ⟨⟨n, hn⟩, hbest⟩ :=
    play_finishes (TicTacToe.honest .threeFree) TicTacToe.endsWithin_threeFree.ends
  refine ⟨⟨n, fun limit hl => ?_⟩, ?_⟩
  · exact hn _ TicTacToe.engine _ (.searching "search" hserves (by decide))
      (Player.standard_random "chance" TicTacToe.game _) limit hl
  · exact hbest TicTacToe.engine hserves .threeFree (.refl _ _) (by decide) 1 (Nat.le_refl 1)

end Table

end TreeSearch
