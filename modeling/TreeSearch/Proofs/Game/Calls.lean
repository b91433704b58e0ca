import TreeSearch.Proofs.Game.Census
import TreeSearch.Proofs.Game.Contract

/-!
# The calls of a search

`Search.value` calls itself for the position after each move that it tries.  `Search.calls` lists these calls, and the
first call before them, in the order in which they are made.

* (moves) `visits`: the moves that a scan comes to, and the window that each of them is searched in.
* (as many as counted) `length_calls`: there is one call for each position that the search counts.
* (open windows) `lo_lt_hi_of_mem_calls`: with pruning, a search that is given an open window makes all its calls in
  open windows; a window that a visit has closed is not used again.
* (root) `length_calls_full`: the search from the root makes the calls of the recursion in the full window, which is
  open.
* (contract) `value_keeps_contract`: so the contract on windows speaks of every call.
-/

namespace TreeSearch

variable {σ μ : Type}

/-- A call of the recursion. -/
structure Call (σ : Type) where
  depth : Nat
  position : σ
  window : Window

namespace Search

/-- The moves that a scan visits, each with its window. -/
def visits (prune : Bool) (side : Side) (visit : μ → Window → Counted Float) :
    Float → Window → List μ → List (μ × Window)
  | _, _, [] => []
  | best, w, m :: ms =>
    (m, w) ::
      match (visit m w).result with
      | .error _ => []
      | .ok v =>
        let best := side.better best v
        let w := w.narrow side best
        if prune && w.closed then [] else visits prune side visit best w ms

/-- The calls that a search makes, itself first. -/
def calls (e : Search σ μ) : Nat → σ → Window → List (Call σ)
  | 0, s, w => [⟨0, s, w⟩]
  | depth + 1, s, w =>
    ⟨depth + 1, s, w⟩ ::
      if e.game.terminal s || (e.game.moves s).isEmpty then []
      else
        let side := e.game.turn s
        (visits e.config.pruning side (e.visit depth s) side.worst w (e.game.moves s)).flatMap fun c =>
          (e.game.step s c.1).toOption.elim [] fun t => e.calls depth t c.2

/-! ### As many as counted -/

private theorem nodes_scan (prune : Bool) (side : Side) (visit : μ → Window → Counted Float) (best : Float) (w : Window)
    (ms : List μ) :
    (scan prune side visit best w ms).tally.nodes =
      ((visits prune side visit best w ms).map fun c => (visit c.1 c.2).tally.nodes).sum := by
  induction ms generalizing best w with
  | nil => rfl
  | cons m ms ih =>
    rw [scan, visits, List.map_cons, List.sum_cons]
    cases hv : (visit m w).result with
    | error err => rw [Counted.bind_of_error hv]; rfl
    | ok v =>
      rw [Counted.bind_of_ok hv, Tally.add_nodes]
      congr 1
      dsimp only
      split
      · rfl
      · exact ih _ _

/-- A search makes one call for each position that it counts. -/
theorem length_calls (e : Search σ μ) (depth : Nat) (s : σ) (w : Window) :
    (e.calls depth s w).length = (e.value depth s w).tally.nodes := by
  induction depth generalizing s w with
  | zero =>
    rw [value, Counted.tally_count_bind]
    split <;> rfl
  | succ depth ih =>
    rw [value, calls, Counted.tally_count_bind, Tally.add_nodes, List.length_cons, Nat.add_comm]
    congr 1
    split
    · rfl
    · show _ = (scan e.config.pruning (e.game.turn s) (e.visit depth s) _ w (e.game.moves s)).tally.nodes
      rw [nodes_scan, List.length_flatMap]
      congr 1
      refine List.map_congr_left fun c _ => ?_
      rw [tally_visit]
      cases e.game.step s c.1 with
      | error err => rfl
      | ok t => exact ih t c.2

/-! ### Open windows -/

/-- A scan with pruning that begins in an open window visits all its moves in open windows. -/
private theorem lo_lt_hi_of_mem_visits {side : Side} {visit : μ → Window → Counted Float} {best : Float} {w : Window}
    (hw : w.lo < w.hi) {ms : List μ} : ∀ c ∈ visits true side visit best w ms, c.2.lo < c.2.hi := by
  induction ms generalizing best w with
  | nil => exact List.forall_mem_nil _
  | cons m ms ih =>
    rw [visits, List.forall_mem_cons]
    refine ⟨hw, ?_⟩
    cases (visit m w).result with
    | error err => exact List.forall_mem_nil _
    | ok v =>
      have hnumeric := (Window.isNumeric_of_lt hw).narrow side (side.better best v)
      dsimp only
      cases hclosed : (w.narrow side (side.better best v)).closed with
      | true => exact List.forall_mem_nil _
      | false => exact ih (hnumeric.closed_eq_false_iff.mp hclosed)

/-- A search with pruning that is given an open window makes all its calls in open windows. -/
theorem lo_lt_hi_of_mem_calls {e : Search σ μ} (hp : e.config.pruning = true) {depth : Nat} {s : σ} {w : Window}
    (hw : w.lo < w.hi) : ∀ c ∈ e.calls depth s w, c.window.lo < c.window.hi := by
  induction depth generalizing s w with
  | zero => exact List.forall_mem_singleton.mpr hw
  | succ depth ih =>
    rw [calls, List.forall_mem_cons]
    refine ⟨hw, ?_⟩
    split
    · exact List.forall_mem_nil _
    · rw [hp]
      intro c hc
      obtain ⟨visited, hmem, hc⟩ := List.mem_flatMap.mp hc
      have hopen := lo_lt_hi_of_mem_visits hw visited hmem
      cases hstep : e.game.step s visited.1 with
      | error err => simp [hstep, Except.toOption] at hc
      | ok t => exact ih hopen c (by simpa [hstep, Except.toOption] using hc)

/-- The search from the root makes the calls of the recursion in the full window, without the first one. -/
theorem length_calls_full (e : Search σ μ) (depth : Nat) (s : σ) :
    (e.calls depth s .full).length = (e.choose s depth).tally.nodes + 1 := by
  rw [length_calls, tally_value_full, Tally.add_nodes, Nat.add_comm]
  rfl

/-- In a tree without refused moves the search with pruning answers in every open window with the value of the position
if the window holds it, and elsewhere with a score between the value and the bound that the value does not pass.  All
its calls are made in open windows, so that each of them may be relied on in the same way; and so are those of the
search from the root. -/
theorem value_keeps_contract {e : Search σ μ} (hp : e.config.pruning = true) {depth : Nat} {s : σ}
    (h : e.game.Sound depth s) {w : Window} (hw : w.lo < w.hi) :
    (∃ r, (e.value depth s w).result = .ok r ∧
      (w.lo < e.minimax depth s → e.minimax depth s < w.hi → r = e.minimax depth s) ∧
      (e.minimax depth s ≤ w.lo → e.minimax depth s ≤ r ∧ r ≤ w.lo) ∧
      (w.hi ≤ e.minimax depth s → w.hi ≤ r ∧ r ≤ e.minimax depth s)) ∧
    ((e.calls depth s w).length = (e.value depth s w).tally.nodes ∧
      ∀ c ∈ e.calls depth s w, c.window.lo < c.window.hi) ∧
    (e.calls depth s .full).length = (e.choose s depth).tally.nodes + 1 ∧
      ∀ c ∈ e.calls depth s .full, c.window.lo < c.window.hi := by
  obtain ⟨r, hr, hagrees⟩ := value_agrees hp h hw
  refine ⟨⟨r, hr, hagrees.inside, hagrees.below, hagrees.above⟩, ?_, ?_⟩
  · exact ⟨e.length_calls depth s w, lo_lt_hi_of_mem_calls hp hw⟩
  · exact ⟨e.length_calls_full depth s, lo_lt_hi_of_mem_calls hp Window.full_lo_lt_hi⟩

/-- The first move scores more than the window allows, so that the better ones after it are not looked at. -/
theorem value_keeps_contract_threeFree :
    let centre : Evaluator TicTacToe.Position := fun p _ => if p.mark? 4 = some .plus then 1 else 5
    let e := (TicTacToe.engine.withEvaluator centre).toSearch
    let w : Window := ⟨-3, 0⟩
    e.game.Sound 2 .threeFree ∧ w.lo < w.hi ∧ e.minimax 2 .threeFree = 5 ∧ (e.value 2 .threeFree w).result = .ok 1 ∧
      w.hi ≤ 1 ∧ 1 ≤ e.minimax 2 .threeFree ∧ (e.calls 2 .threeFree w).length = 4 ∧
      (∀ c ∈ e.calls 2 .threeFree w, c.window.lo < c.window.hi) ∧
      ∀ c ∈ e.calls 2 .threeFree .full, c.window.lo < c.window.hi := by
  intro centre e w
  have hsound : e.game.Sound 2 .threeFree := (TicTacToe.honest .threeFree).sound 2
  have hw : w.lo < w.hi := by decide +kernel
  have hvalue : e.minimax 2 .threeFree = 5 := by decide +kernel
  have hanswer : (e.value 2 .threeFree w).result = .ok 1 := by decide +kernel
  have hnodes : (e.value 2 .threeFree w).tally.nodes = 4 := by decide +kernel
  have hhigh : w.hi ≤ e.minimax 2 .threeFree := by
    rw [hvalue]
    decide +kernel
  obtain ⟨⟨r, hr, -, -, habove⟩, ⟨hlength, hopen⟩, -, hroot⟩ := value_keeps_contract (e := e) rfl hsound hw
  obtain rfl : r = 1 := Except.ok.inj (hr.symm.trans hanswer)
  obtain ⟨hbound, hbest⟩ := habove hhigh
  exact ⟨hsound, hw, hvalue, hanswer, hbound, hbest, hlength.trans hnodes, hopen, hroot⟩

end Search
end TreeSearch
