import TreeSearch.Proofs.Game.Exhaustive
import TreeSearch.Proofs.Game.Word
import TreeSearch.Proofs.TicTacToe.Rules

/-!
# What there is to count

The census of a position is the tally of a search that leaves nothing out.

* `Tally.Within prune t whole`: `t` may be the tally of a search, with pruning or without, where `whole` is what there
  is to count.
* (every search) `value_within`: whatever the window says, and whether or not the search meets an error, it counts no
  more than the census.
* (exhaustive search) `tally_value_exhaustive`: without pruning and without refused moves it counts the census.
* (lines of play) `nodes_census`, `horizon_census`: the census counts a position for each line of play, and shows the
  horizon iff a line of full length ends at an unfinished position.
* (root) `Engine.tally_bestMove_eq_lines`: so the counters of a search say how many lines of play there are.
-/

namespace TreeSearch

variable {σ μ : Type}

namespace Tally

/-- Sums of tallies, field by field. -/
private theorem nodes_sum (ts : List Tally) : ts.sum.nodes = (ts.map nodes).sum := by
  induction ts with
  | nil => rfl
  | cons t ts ih => rw [List.sum_cons, add_nodes, ih, List.map_cons, List.sum_cons]

private theorem horizon_sum (ts : List Tally) : ts.sum.horizon = ts.any horizon := by
  induction ts with
  | nil => rfl
  | cons t ts ih => rw [List.sum_cons, add_horizon, ih, List.any_cons]

/-- No more is counted than there is, and without pruning there are no cut-offs. -/
structure Within (prune : Bool) (t whole : Tally) : Prop where
  nodes_le : t.nodes ≤ whole.nodes
  horizon_imp : t.horizon = true → whole.horizon = true
  cutoffs_eq : prune = false → t.cutoffs = 0

variable {prune : Bool} {t u whole rest : Tally}

private theorem Within.zero (prune : Bool) (whole : Tally) : Within prune 0 whole :=
  ⟨Nat.zero_le _, nofun, fun _ => rfl⟩

private theorem Within.node (prune : Bool) : Within prune node node := ⟨Nat.le_refl _, id, fun _ => rfl⟩

private theorem Within.horizonReached (prune : Bool) : Within prune horizonReached horizonReached :=
  ⟨Nat.le_refl _, id, fun _ => rfl⟩

private theorem Within.cutoff (whole : Tally) : Within true cutoff whole := ⟨Nat.zero_le _, nofun, nofun⟩

private theorem Within.add (h : Within prune t whole) (k : Within prune u rest) :
    Within prune (t + u) (whole + rest) where
  nodes_le := Nat.add_le_add h.nodes_le k.nodes_le
  horizon_imp htu := by
    rw [add_horizon, Bool.or_eq_true] at *
    exact htu.imp h.horizon_imp k.horizon_imp
  cutoffs_eq hp := by rw [add_cutoffs, h.cutoffs_eq hp, k.cutoffs_eq hp]

end Tally

/-- What there is to count in the tree below a position, the position itself included. -/
def Game.census (g : Game σ μ) : Nat → σ → Tally
  | 0, s => .node + if g.terminal s then 0 else .horizonReached
  | depth + 1, s => .node + ((g.children s).map (g.census depth)).sum

namespace Counted

variable {α β : Type}

/-- An error leaves out what comes after it. -/
private theorem within_bind {prune : Bool} {whole rest : Tally} {x : Counted α} {f : α → Counted β}
    (hx : x.tally.Within prune whole) (hf : ∀ a, x.result = .ok a → (f a).tally.Within prune rest) :
    (x >>= f).tally.Within prune (whole + rest) := by
  cases h : x.result with
  | error err =>
    rw [bind_of_error h, ← Tally.add_zero x.tally]
    exact hx.add (.zero _ _)
  | ok a =>
    rw [bind_of_ok h]
    exact hx.add (hf a h)

end Counted

namespace Search

/-! ### Every search -/

/-- The tally of a scan is within the sum of what there is to count after its moves. -/
private theorem scan_within {prune : Bool} {side : Side} {visit : μ → Window → Counted Float} {whole : μ → Tally}
    {ms : List μ} (h : ∀ m ∈ ms, ∀ w, (visit m w).tally.Within prune (whole m)) (best : Float) (w : Window) :
    (scan prune side visit best w ms).tally.Within prune (ms.map whole).sum := by
  induction ms generalizing best w with
  | nil => exact .zero _ _
  | cons m ms ih =>
    rw [scan, List.map_cons, List.sum_cons]
    refine Counted.within_bind (h m (List.mem_cons_self ..) w) fun v _ => ?_
    show Counted.tally (if _ then _ else _) |>.Within _ _
    split
    · rename_i hcut
      rw [Bool.and_eq_true] at hcut
      rw [hcut.1, Counted.tally_count_bind, Counted.tally_pure, Tally.add_zero]
      exact .cutoff _
    · exact ih (fun m' hm' => h m' (List.mem_cons_of_mem _ hm')) _ _

/-- What there is to count after a move. -/
theorem tally_visit (e : Search σ μ) (depth : Nat) (s : σ) (m : μ) (w : Window) :
    (e.visit depth s m w).tally = (e.game.step s m).toOption.elim 0 fun t => (e.value depth t w).tally := by
  rw [visit, play]
  cases h : e.game.step s m with
  | ok t =>
    rw [Counted.bind_of_ok (x := Counted.ofExcept (.ok t)) rfl, Counted.tally_ofExcept, Tally.zero_add]
    rfl
  | error err =>
    rw [Counted.bind_of_error (x := Counted.ofExcept (.error err)) rfl]
    rfl

private theorem census_succ {g : Game σ μ} {s : σ} (hs : g.terminal s = false) (depth : Nat) :
    g.census (depth + 1) s =
      .node + ((g.moves s).map fun m => (g.step s m).toOption.elim 0 (g.census depth)).sum := by
  rw [Game.census, Game.sum_map_children Tally.zero_add, hs]
  rfl

/-- Every search counts no more than there is. -/
theorem value_within (e : Search σ μ) (depth : Nat) (s : σ) (w : Window) :
    (e.value depth s w).tally.Within e.config.pruning (e.game.census depth s) := by
  induction depth generalizing s w with
  | zero =>
    rw [value, Counted.tally_count_bind, Game.census]
    refine (Tally.Within.node _).add ?_
    split
    · exact .zero _ _
    · rw [Counted.tally_count_bind]
      exact .horizonReached _
  | succ depth ih =>
    rw [value, Counted.tally_count_bind]
    split
    · rw [Game.census]
      exact (Tally.Within.node _).add (.zero _ _)
    · rename_i hleaf
      have hs : e.game.terminal s = false := by simp_all
      have hvisit : ∀ m ∈ e.game.moves s, ∀ w, (e.visit depth s m w).tally.Within e.config.pruning
          ((e.game.step s m).toOption.elim 0 (e.game.census depth)) := by
        intro m _ w
        rw [tally_visit]
        cases (e.game.step s m).toOption with
        | none => exact .zero _ _
        | some t => exact ih t w
      rw [census_succ hs]
      exact (Tally.Within.node _).add (scan_within hvisit _ _)

/-! ### Exhaustive search -/

private theorem tally_scan_exhaustive {side : Side} {visit : μ → Window → Counted Float} {whole : μ → Tally}
    {ms : List μ}
    (h : ∀ m ∈ ms, ∀ w, ∃ v, (visit m w).result = .ok v ∧ (visit m w).tally = whole m) (best : Float) (w : Window) :
    (scan false side visit best w ms).tally = (ms.map whole).sum := by
  induction ms generalizing best w with
  | nil => rfl
  | cons m ms ih =>
    obtain ⟨v, hv, ht⟩ := h m (List.mem_cons_self ..) w
    rw [scan, Counted.bind_of_ok hv, ht, List.map_cons, List.sum_cons]
    exact congrArg (whole m + ·) (ih (fun m' hm' => h m' (List.mem_cons_of_mem _ hm')) _ _)

/-- In a sound tree the search without pruning counts all there is. -/
theorem tally_value_exhaustive {e : Search σ μ} (hp : e.config.pruning = false) {depth : Nat} {s : σ}
    (h : e.game.Sound depth s) (w : Window) : (e.value depth s w).tally = e.game.census depth s := by
  induction depth generalizing s w with
  | zero =>
    rw [value, Counted.tally_count_bind, Game.census]
    split <;> rfl
  | succ depth ih =>
    rw [value, Counted.tally_count_bind]
    split
    · -- a position without moves after it
      rename_i hleaf
      have hchildren : e.game.children s = [] := by
        rw [Game.children]
        split
        · rfl
        · simp_all
      rw [Game.census, hchildren]
      rfl
    · rename_i hleaf
      have hs : e.game.terminal s = false := by simp_all
      have hvisit : ∀ m ∈ e.game.moves s, ∀ w, ∃ v, (e.visit depth s m w).result = .ok v ∧
          (e.visit depth s m w).tally = (e.game.step s m).toOption.elim 0 (e.game.census depth) := by
        intro m hm w
        obtain ⟨t, ht, hsound⟩ := (Game.sound_succ hs).mp h m hm
        rw [result_visit ht, tally_visit, ht]
        exact ⟨_, value_exhaustive hp hsound w, ih hsound w⟩
      rw [census_succ hs, hp]
      exact congrArg (Tally.node + ·) (tally_scan_exhaustive hvisit _ _)

end Search

/-! ### The census and the lines of play -/

namespace Game

/-- A line of exactly `depth` moves ends at an unfinished position. -/
def StaysOpen (g : Game σ μ) (depth : Nat) (s : σ) : Prop :=
  ∃ word t, word.length = depth ∧ g.follow s word = some t ∧ g.terminal t = false

variable {g : Game σ μ} {depth : Nat} {s : σ}

theorem nodes_census : (g.census depth s).nodes = (g.words depth s).length := by
  induction depth generalizing s with
  | zero =>
    rw [census, Tally.add_nodes]
    split <;> rfl
  | succ depth ih =>
    rw [census, Tally.add_nodes, Tally.nodes_sum, List.map_map, length_words_succ]
    congr 3
    funext t
    exact ih

private theorem staysOpen_iff_after : g.StaysOpen depth s ↔ ∃ t ∈ g.after depth s, g.terminal t = false := by
  constructor
  · rintro ⟨word, t, hlen, hword, hopen⟩
    exact ⟨t, mem_after.mpr ⟨word, hlen, hword⟩, hopen⟩
  · rintro ⟨t, ht, hopen⟩
    obtain ⟨word, hlen, hword⟩ := mem_after.mp ht
    exact ⟨word, t, hlen, hword, hopen⟩

/-- The game stays open for one move more iff it stays open after some first move. -/
private theorem staysOpen_succ : g.StaysOpen (depth + 1) s ↔ ∃ t ∈ g.children s, g.StaysOpen depth t := by
  simp only [staysOpen_iff_after, after, List.mem_flatMap]
  constructor
  · rintro ⟨t, ⟨c, hc, ht⟩, hopen⟩
    exact ⟨c, hc, t, ht, hopen⟩
  · rintro ⟨c, hc, t, ht, hopen⟩
    exact ⟨t, ⟨c, hc, ht⟩, hopen⟩

theorem horizon_census : (g.census depth s).horizon = true ↔ g.StaysOpen depth s := by
  induction depth generalizing s with
  | zero =>
    rw [staysOpen_iff_after, census, Tally.add_horizon, after]
    cases hs : g.terminal s <;> simp [Tally.node, Tally.horizonReached, hs]
  | succ depth ih =>
    rw [staysOpen_succ, census, Tally.add_horizon, Tally.horizon_sum, List.any_map]
    simp only [Tally.node, Bool.false_or, List.any_eq_true, Function.comp, ih]

end Game

namespace Engine

/-! ### At the root -/

/-- The root is not counted, but for that every search counts no more than the census. -/
theorem bestMove_within {e : Engine σ μ} (hc : e.config.check = .ok ()) (s : σ) (depth : Nat) :
    (.node + (e.bestMove s depth).2.tally : Tally).Within e.config.pruning (e.game.census depth s) := by
  rw [tally_bestMove_of_check hc, ← Search.tally_value_full]
  exact e.value_within depth s .full

theorem tally_bestMove_exhaustive {e : Engine σ μ} {s : σ} {depth : Nat} {r : Option μ × Float}
    (h : ((e.withPruning false).bestMove s depth).1 = .ok r) :
    .node + ((e.withPruning false).bestMove s depth).2.tally = e.game.census depth s := by
  rw [tally_bestMove_of_check (check_of_bestMove h), ← Search.tally_value_full]
  exact Search.tally_value_exhaustive (e := (e.withPruning false).toSearch) rfl (sound_of_bestMove h) .full

/-- A search without pruning that ends with an answer has counted the lines of play that are no longer than its depth,
and it has reached the horizon iff a line of full length ends at an unfinished position.  A search with pruning does not
reach the horizon otherwise either. -/
theorem tally_bestMove_eq_lines {e : Engine σ μ} (hc : e.config.check = .ok ()) (s : σ) (depth : Nat) :
    let plain := (e.withPruning false).bestMove s depth
    let pruned := (e.withPruning true).bestMove s depth
    (∀ r, plain.1 = .ok r →
      plain.2.tally.nodes =
          {word | word ≠ [] ∧ word.length ≤ depth ∧ (e.game.follow s word).isSome = true}.encard ∧
        (plain.2.tally.horizon = true ↔ e.game.StaysOpen depth s)) ∧
      (pruned.2.tally.horizon = true → e.game.StaysOpen depth s) := by
  intro plain pruned
  constructor
  · intro r hr
    have hcensus : .node + plain.2.tally = e.game.census depth s := tally_bestMove_exhaustive hr
    have hnodes : 1 + plain.2.tally.nodes = (e.game.words depth s).length := by
      rw [← Game.nodes_census, ← hcensus]
      rfl
    constructor
    · rw [Game.encard_words, List.length_tail, ← hnodes, Nat.add_sub_cancel_left]
    · rw [← Game.horizon_census, ← hcensus, Tally.add_horizon]
      rfl
  · intro h
    have hwithin : (.node + pruned.2.tally : Tally).Within true (e.game.census depth s) :=
      bestMove_within (e := e.withPruning true) hc s depth
    refine Game.horizon_census.mp (hwithin.horizon_imp ?_)
    rw [Tally.add_horizon, h, Bool.or_true]

/-- Three free cells: fifteen lines of play, none of which leaves the game open after three moves, while after two moves
it can be open. -/
theorem tally_bestMove_eq_lines_threeFree :
    TicTacToe.engine.config.check = .ok () ∧
      {word | word ≠ [] ∧ word.length ≤ 3 ∧ (TicTacToe.game.follow .threeFree word).isSome = true}.encard = 15 ∧
      ¬TicTacToe.game.StaysOpen 3 .threeFree ∧ TicTacToe.game.StaysOpen 2 .threeFree := by
  have hcheck : TicTacToe.engine.config.check = .ok () := rfl
  have htally : ((TicTacToe.engine.withPruning false).bestMove .threeFree 3).2.tally = ⟨15, 0, false⟩ := by
    decide +kernel
  have hflag : ((TicTacToe.engine.withPruning true).bestMove .threeFree 2).2.tally.horizon = true := by decide +kernel
  obtain ⟨hplain, -⟩ := tally_bestMove_eq_lines hcheck .threeFree 3
  obtain ⟨hnodes, hopen⟩ := hplain _ rfl
  rw [htally] at hnodes hopen
  exact ⟨hcheck, hnodes.symm, fun h => Bool.false_ne_true (hopen.mpr h),
    (tally_bestMove_eq_lines hcheck .threeFree 2).2 hflag⟩

end Engine

end TreeSearch
