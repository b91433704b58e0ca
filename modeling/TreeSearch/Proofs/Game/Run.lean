import TreeSearch.Game.Play
import TreeSearch.Game.Line

/-!
# Games that end

What happens on the table while a game is played, and why it comes to an end.

* `Table.Arises`: a position that is on the board at some time, with what the players remember then.
* `Table.Answers`: whenever it is its turn, the player of a side answers with a move, and with one of a given kind.
* `Table.Finishes`: the game ends with a finished position, of which something holds.
* (rules) `Arises.reaches`: while both players answer with legal moves, the game stays where the rules lead; so by
  `answers_of_reaches` it is enough to know their answers there.
* (end of the game) `Table.play_ends`: if both players answer with legal moves and no line of play is longer than `n`
  moves, then `n` requests suffice to finish the game.
* (size) `Table.exists_play_of_size`: if every accepted move lowers a size of positions, then the loop comes to an end,
  whatever the players answer.
-/

namespace TreeSearch

/-- The sequence that begins with `a` and goes on as `f`. -/
def startingWith {α : Type} (a : α) (f : Nat → α) : Nat → α
  | 0 => a
  | j + 1 => f j

namespace Table

variable {σ μ ι κ : Type}

/-- What is on the table at some time of the game that starts at `s₀`. -/
inductive Arises (t : Table σ μ ι κ) (g : Game σ μ) (s₀ : σ) (i₀ : ι) (k₀ : κ) : σ → ι → κ → Prop
  | start : Arises t g s₀ i₀ k₀ s₀ i₀ k₀
  | step {s i k m next i' k'} (h : Arises t g s₀ i₀ k₀ s i k) (hs : g.terminal s = false)
      (hask : t.ask (g.turn s) s i k = (.ok (some m), i', k')) (hstep : g.step s m = .ok next) :
      Arises t g s₀ i₀ k₀ next i' k'

/-- During the game the player of `side` always answers with a move, and `P` holds of it. -/
def Answers (t : Table σ μ ι κ) (g : Game σ μ) (s₀ : σ) (i₀ : ι) (k₀ : κ) (side : Side) (P : σ → μ → Prop) : Prop :=
  ∀ s i k, t.Arises g s₀ i₀ k₀ s i k → g.terminal s = false → g.turn s = side →
    ∃ m, (t.ask side s i k).1 = .ok (some m) ∧ P s m

/-- The game is finished after at most `limit` requests, and `P` holds of the position it ends in. -/
def Finishes (t : Table σ μ ι κ) (g : Game σ μ) (limit : Nat) (s : σ) (i : ι) (k : κ) (P : σ → Prop) : Prop :=
  ∃ r u, t.play g limit s i k = some r ∧ r.outcome = .ok u ∧ g.terminal u = true ∧ P u

section

variable {t : Table σ μ ι κ} {g : Game σ μ} {s₀ : σ} {i₀ : ι} {k₀ : κ}

/-- The outcome does not depend on what is asked about it. -/
theorem Finishes.and {limit : Nat} {s : σ} {i : ι} {k : κ} {P Q : σ → Prop} (hp : t.Finishes g limit s i k P)
    (hq : t.Finishes g limit s i k Q) : t.Finishes g limit s i k fun u => P u ∧ Q u := by
  obtain ⟨r, u, hr, hout, hu, hp⟩ := hp
  obtain ⟨r', u', hr', hout', -, hq⟩ := hq
  obtain rfl : r = r' := Option.some.inj (hr.symm.trans hr')
  obtain rfl : u = u' := Except.ok.inj (hout.symm.trans hout')
  exact ⟨r, u, hr, hout, hu, hp, hq⟩

theorem Finishes.imp {limit : Nat} {s : σ} {i : ι} {k : κ} {P Q : σ → Prop} (h : t.Finishes g limit s i k P)
    (hpq : ∀ u, P u → Q u) : t.Finishes g limit s i k Q := by
  obtain ⟨r, u, hr, hout, hu, hp⟩ := h
  exact ⟨r, u, hr, hout, hu, hpq u hp⟩

theorem play_of_terminal {s : σ} (hs : g.terminal s = true) (limit : Nat) (i : ι) (k : κ) :
    t.play g limit s i k = some { outcome := .ok s, plus := i, minus := k } := by
  cases limit <;> simp [play, hs]

private theorem play_of_ask {s next : σ} {m : μ} {i i' : ι} {k k' : κ} (hs : g.terminal s = false)
    (hask : t.ask (g.turn s) s i k = (.ok (some m), i', k')) (hstep : g.step s m = .ok next) (limit : Nat) :
    t.play g (limit + 1) s i k = (t.play g limit next i' k').map fun r =>
      { r with requests := ⟨g.turn s, s, .ok (some m)⟩ :: r.requests } := by
  simp [play, hs, hask, hstep]

/-- What the players remember keeps a property that every request keeps. -/
theorem Arises.remembers {P : ι → κ → Prop} {s : σ} {i : ι} {k : κ} (h : t.Arises g s₀ i₀ k₀ s i k) (h₀ : P i₀ k₀)
    (hask : ∀ side s i k, P i k → P (t.ask side s i k).2.1 (t.ask side s i k).2.2) : P i k := by
  induction h with
  | start => exact h₀
  | @step s i k _ _ _ _ _ _ ha _ ih =>
    have hnext := hask (g.turn s) s i k ih
    rwa [ha] at hnext

/-- Where legal moves are answered, only positions that the rules lead to are on the board. -/
theorem Arises.reaches
    (hans : ∀ s i k, t.Arises g s₀ i₀ k₀ s i k → g.Reaches s₀ s → g.terminal s = false →
      ∃ m ∈ g.moves s, (t.ask (g.turn s) s i k).1 = .ok (some m))
    {s : σ} {i : ι} {k : κ} (h : t.Arises g s₀ i₀ k₀ s i k) : g.Reaches s₀ s := by
  induction h with
  | start => exact .refl g s₀
  | @step s i k m next i' k' h ht hask hstep ih =>
    obtain ⟨m', hm', hans'⟩ := hans s i k h ih ht
    rw [hask] at hans'
    obtain rfl : m = m' := by simpa using hans'
    exact ih.trans (.of_mem_children (Game.mem_children.mpr ⟨ht, m, hm', hstep⟩))

/-- Players that answer with legal moves wherever the rules lead do so throughout the game. -/
theorem answers_of_reaches
    (hans : ∀ s i k, t.Arises g s₀ i₀ k₀ s i k → g.Reaches s₀ s → g.terminal s = false →
      ∃ m ∈ g.moves s, (t.ask (g.turn s) s i k).1 = .ok (some m)) :
    ∀ side, t.Answers g s₀ i₀ k₀ side fun s m => m ∈ g.moves s := by
  rintro side s i k ha ht rfl
  obtain ⟨m, hm, hask⟩ := hans s i k ha (ha.reaches hans) ht
  exact ⟨m, hask, hm⟩

theorem Arises.reaches_of_answers (hans : ∀ side, t.Answers g s₀ i₀ k₀ side fun s m => m ∈ g.moves s) {s : σ} {i : ι}
    {k : κ} (h : t.Arises g s₀ i₀ k₀ s i k) : g.Reaches s₀ s := by
  refine h.reaches ?_
  intro s i k ha _ ht
  obtain ⟨m, hask, hm⟩ := hans (g.turn s) s i k ha ht rfl
  exact ⟨m, hm, hask⟩

/-- If both players answer with legal moves, the game is finished after as many requests as the longest line of play
has moves. -/
theorem play_ends (hans : ∀ side, t.Answers g s₀ i₀ k₀ side fun s m => m ∈ g.moves s) {n : Nat} {s : σ} {i : ι} {k : κ}
    (hs : g.Honest s) (hn : g.EndsWithin n s) (ha : t.Arises g s₀ i₀ k₀ s i k) {limit : Nat} (hl : n ≤ limit) :
    t.Finishes g limit s i k fun u => ∃ i k, t.Arises g s₀ i₀ k₀ u i k := by
  induction n generalizing s i k limit with
  | zero =>
    have ht := hn.terminal hs
    exact ⟨_, s, play_of_terminal ht limit i k, rfl, ht, i, k, ha⟩
  | succ n ih =>
    cases ht : g.terminal s with
    | true => exact ⟨_, s, play_of_terminal ht limit i k, rfl, ht, i, k, ha⟩
    | false =>
      obtain ⟨limit, rfl⟩ := Nat.exists_eq_add_of_le' (Nat.le_trans (Nat.succ_pos n) hl)
      obtain ⟨m, hask, hm⟩ := hans (g.turn s) s i k ha ht rfl
      obtain ⟨next, hstep⟩ := hs.step_ok s (Game.Reaches.refl g s) ht m hm
      have hchild : next ∈ g.children s := Game.mem_children.mpr ⟨ht, m, hm, hstep⟩
      have hask' : t.ask (g.turn s) s i k = (.ok (some m), (t.ask (g.turn s) s i k).2) := Prod.ext hask rfl
      obtain ⟨r, u, hr, hout, hu⟩ := ih (hs.of_reaches (.of_mem_children hchild)) (hn.child hchild)
        (ha.step ht hask' hstep) (Nat.le_of_succ_le_succ hl)
      rw [Finishes, play_of_ask ht hask' hstep, hr]
      exact ⟨_, u, rfl, hout, hu⟩

end

/-- A game stops, whoever plays, if positions have a size that is positive while the game goes on and that every
accepted move lowers.  As many requests as the size of the first position are enough. -/
theorem exists_play_of_size {g : Game σ μ} {size : σ → Nat} (hpos : ∀ s, g.terminal s = false → 0 < size s)
    (hlower : ∀ s m next, g.terminal s = false → g.step s m = .ok next → size next < size s) (t : Table σ μ ι κ)
    (s : σ) (i : ι) (k : κ) : ∃ r, ∀ limit ≥ size s, t.play g limit s i k = some r := by
  induction hn : size s using Nat.strongRecOn generalizing s i k with
  | ind n ih =>
    subst hn
    cases hs : g.terminal s with
    | true => exact ⟨_, fun limit _ => play_of_terminal hs limit i k⟩
    | false =>
      have hsucc : ∀ limit ≥ size s, ∃ rest, limit = rest + 1 := fun limit hl =>
        Nat.exists_eq_add_of_le' (Nat.le_trans (hpos s hs) hl)
      -- the cases in which the first request is the last one
      have hlast : ∀ r, (∀ rest, t.play g (rest + 1) s i k = some r) →
          ∃ r, ∀ limit ≥ size s, t.play g limit s i k = some r := by
        intro r hr
        refine ⟨r, fun limit hl => ?_⟩
        obtain ⟨rest, rfl⟩ := hsucc limit hl
        exact hr rest
      rcases hask : t.ask (g.turn s) s i k with ⟨answer, i', k'⟩
      rcases answer with e | _ | m
      · exact hlast _ fun rest => by simp only [play, hs, hask]; rfl
      · exact hlast _ fun rest => by simp only [play, hs, hask]; rfl
      · cases hstep : g.step s m with
        | error e => exact hlast _ fun rest => by simp only [play, hs, hask, hstep]; rfl
        | ok next =>
          have hsmaller := hlower s m next hs hstep
          obtain ⟨r, hr⟩ := ih (size next) hsmaller next i' k' rfl
          refine ⟨{ r with requests := ⟨g.turn s, s, .ok (some m)⟩ :: r.requests }, fun limit hl => ?_⟩
          obtain ⟨rest, rfl⟩ := hsucc limit hl
          rw [play_of_ask hs hask hstep, hr rest (by omega)]
          rfl

end Table

end TreeSearch
