import TreeSearch.Game.Basic

/-!
# Lines of play

The tree of a game, level by level: `after k s` lists the positions that `k` legal moves lead to, one entry for each
line of moves.

* A finished position has no children; a move that the game refuses leads nowhere.
* `Sound depth s`: no legal move is refused at a position fewer than `depth` moves away.
* `Honest s`: no legal move is ever refused, and a position without one is finished.
* `EndsWithin n s`: no line of play from `s` is longer than `n` moves.
* (one level) `mem_children`, `sound_succ`: what holds of a tree, said of its root and of the trees below it.
* (levels add up) `after_add`: `j + k` moves are `j` moves and then `k` more.
-/

namespace TreeSearch.Game

variable {σ μ : Type}

/-- The positions after one legal move. -/
def children (g : Game σ μ) (s : σ) : List σ :=
  if g.terminal s then [] else (g.moves s).filterMap fun m => (g.step s m).toOption

/-- The positions after `k` legal moves. -/
def after (g : Game σ μ) : Nat → σ → List σ
  | 0, s => [s]
  | k + 1, s => (g.children s).flatMap (g.after k)

/-- Some line of play leads from `s` to `t`. -/
def Reaches (g : Game σ μ) (s t : σ) : Prop := ∃ k, t ∈ g.after k s

/-- No legal move is refused within `depth` moves. -/
def Sound (g : Game σ μ) (depth : Nat) (s : σ) : Prop :=
  ∀ k < depth, ∀ t ∈ g.after k s, g.terminal t = false → ∀ m ∈ g.moves t, ∃ u, g.step t m = .ok u

/-- From `s` on, legal moves are accepted and unfinished positions have one. -/
structure Honest (g : Game σ μ) (s : σ) : Prop where
  step_ok : ∀ t, g.Reaches s t → g.terminal t = false → ∀ m ∈ g.moves t, ∃ u, g.step t m = .ok u
  moves_ne : ∀ t, g.Reaches s t → g.terminal t = false → g.moves t ≠ []

/-- No line of play is longer than `n` moves. -/
def EndsWithin (g : Game σ μ) (n : Nat) (s : σ) : Prop := g.after (n + 1) s = []

theorem toOption_eq_some_iff {x : Except Error σ} {t : σ} : x.toOption = some t ↔ x = .ok t := by
  cases x <;> simp [Except.toOption]

theorem mem_children {g : Game σ μ} {s t : σ} :
    t ∈ g.children s ↔ g.terminal s = false ∧ ∃ m ∈ g.moves s, g.step s m = .ok t := by
  unfold children
  split <;> simp_all [toOption_eq_some_iff]

theorem sound_zero (g : Game σ μ) (s : σ) : g.Sound 0 s := fun _ h => absurd h (Nat.not_lt_zero _)

/-- A tree is sound iff its root accepts its legal moves and the trees below it are sound. -/
theorem sound_succ {g : Game σ μ} {depth : Nat} {s : σ} (hs : g.terminal s = false) :
    g.Sound (depth + 1) s ↔ ∀ m ∈ g.moves s, ∃ t, g.step s m = .ok t ∧ g.Sound depth t := by
  constructor
  · intro h m hm
    obtain ⟨t, ht⟩ := h 0 (Nat.succ_pos _) s (List.mem_singleton.mpr rfl) hs m hm
    refine ⟨t, ht, ?_⟩
    intro k hk u hu
    exact h (k + 1) (Nat.succ_lt_succ hk) u (List.mem_flatMap.mpr ⟨t, mem_children.mpr ⟨hs, m, hm, ht⟩, hu⟩)
  · intro h k hk u hu
    cases k with
    | zero =>
      obtain rfl := List.mem_singleton.mp hu
      intro _ m hm
      obtain ⟨t, ht, -⟩ := h m hm
      exact ⟨t, ht⟩
    | succ k =>
      obtain ⟨t, ht, hu⟩ := List.mem_flatMap.mp hu
      obtain ⟨-, m, hm, hstep⟩ := mem_children.mp ht
      obtain ⟨t', hstep', hsound⟩ := h m hm
      obtain rfl : t = t' := Except.ok.inj (hstep.symm.trans hstep')
      exact hsound k (Nat.lt_of_succ_lt_succ hk) u hu

theorem sound_of_terminal {g : Game σ μ} {s : σ} (hs : g.terminal s = true) (depth : Nat) : g.Sound depth s := by
  intro k _ u hu hu'
  cases k with
  | zero =>
    obtain rfl := List.mem_singleton.mp hu
    rw [hs] at hu'
    cases hu'
  | succ k => simp [after, children, hs] at hu

theorem after_add (g : Game σ μ) (j k : Nat) (s : σ) : g.after (j + k) s = (g.after j s).flatMap (g.after k) := by
  induction j generalizing s with
  | zero => simp [after]
  | succ j ih =>
    rw [Nat.succ_add]
    simp only [after, List.flatMap_assoc]
    congr 1
    funext t
    exact ih t

theorem Reaches.refl (g : Game σ μ) (s : σ) : g.Reaches s s := ⟨0, by simp [after]⟩

theorem Reaches.trans {g : Game σ μ} {s t u : σ} (h : g.Reaches s t) (k : g.Reaches t u) : g.Reaches s u := by
  obtain ⟨i, hi⟩ := h
  obtain ⟨j, hj⟩ := k
  exact ⟨i + j, by rw [after_add]; exact List.mem_flatMap.mpr ⟨t, hi, hj⟩⟩

theorem Reaches.of_mem_children {g : Game σ μ} {s t : σ} (h : t ∈ g.children s) : g.Reaches s t :=
  ⟨1, by simpa [after] using h⟩

/-! ### Honest games and games that end -/

theorem Honest.of_reaches {g : Game σ μ} {s t : σ} (h : g.Honest s) (ht : g.Reaches s t) : g.Honest t where
  step_ok u hu := h.step_ok u (ht.trans hu)
  moves_ne u hu := h.moves_ne u (ht.trans hu)

theorem Honest.sound {g : Game σ μ} {s : σ} (h : g.Honest s) (depth : Nat) : g.Sound depth s :=
  fun k _ t ht => h.step_ok t ⟨k, ht⟩

/-- An unfinished position of an honest game has a child. -/
theorem Honest.children_ne {g : Game σ μ} {s : σ} (h : g.Honest s) (hs : g.terminal s = false) : g.children s ≠ [] := by
  obtain ⟨m, hm⟩ := List.exists_mem_of_ne_nil _ (h.moves_ne s (Reaches.refl g s) hs)
  obtain ⟨t, ht⟩ := h.step_ok s (Reaches.refl g s) hs m hm
  exact List.ne_nil_of_mem (mem_children.mpr ⟨hs, m, hm, ht⟩)

theorem EndsWithin.terminal {g : Game σ μ} {s : σ} (h : g.EndsWithin 0 s) (hs : g.Honest s) : g.terminal s = true := by
  have hc : g.children s = [] := by simpa [EndsWithin, after] using h
  rw [← Bool.not_eq_false]
  exact fun ht => hs.children_ne ht hc

theorem EndsWithin.child {g : Game σ μ} {n : Nat} {s t : σ} (h : g.EndsWithin (n + 1) s) (ht : t ∈ g.children s) :
    g.EndsWithin n t :=
  List.flatMap_eq_nil_iff.mp h t ht

theorem EndsWithin.mono {g : Game σ μ} {n k : Nat} {s : σ} (h : g.EndsWithin n s) (hk : n ≤ k) : g.EndsWithin k s := by
  obtain ⟨j, rfl⟩ := Nat.exists_eq_add_of_le hk
  unfold EndsWithin
  rw [show n + j + 1 = (n + 1) + j by omega, after_add, h]
  rfl

theorem EndsWithin.of_reaches {g : Game σ μ} {n : Nat} {s t : σ} (h : g.EndsWithin n s) (ht : g.Reaches s t) :
    g.EndsWithin n t := by
  obtain ⟨k, ht⟩ := ht
  have hlong : g.after (k + (n + 1)) s = [] := by
    rw [Nat.add_comm k (n + 1), after_add, h, List.flatMap_nil]
  rw [after_add, List.flatMap_eq_nil_iff] at hlong
  exact hlong t ht

end TreeSearch.Game
