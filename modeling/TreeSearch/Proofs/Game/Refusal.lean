import Mathlib.Data.List.Lex
import TreeSearch.Proofs.Game.Exhaustive
import TreeSearch.Proofs.Game.Word
import TreeSearch.Proofs.TicTacToe.Rules

/-!
# Refused moves

A search fails only because the game has refused a legal move, and it fails with the error of that refusal.

* `Game.Refuses s word err`: the last move of the line is refused with `err`, after a line that is accepted.
* `Game.FirstRefusal depth s word err`: no other refusal within the depth comes before.  Depth first and in the order of
  the legal moves means in the lexicographic order of the words.
* (moves) `error_of_scan`: a scan that fails has visited the moves before the one that made it fail.
* (whole tree) `refuses_of_value`: so a search fails at a refusal, and without pruning at the first one.
* (converse) `Game.sound_iff`: in a tree without refusals no search fails.
-/

namespace TreeSearch

variable {σ μ : Type}

namespace Game

variable {g : Game σ μ} {s t : σ} {m : μ} {i k depth : Nat} {word : List Nat} {err : Error}

/-- The game refuses the last move of the line, at an unfinished position that the other moves lead to. -/
def Refuses (g : Game σ μ) (s : σ) (word : List Nat) (err : Error) : Prop :=
  ∃ line i t m, word = line ++ [i] ∧ g.follow s line = some t ∧ g.terminal t = false ∧ (g.moves t)[i]? = some m ∧
    g.step t m = .error err

/-- The first refusal that a search meets, moves tried in their order and depth first. -/
structure FirstRefusal (g : Game σ μ) (depth : Nat) (s : σ) (word : List Nat) (err : Error) : Prop where
  length_le : word.length ≤ depth
  refuses : g.Refuses s word err
  first : ∀ word' err', word'.length ≤ depth → g.Refuses s word' err' → ¬word' < word

/-- A refusal comes with the first move or after it. -/
private theorem refuses_cons_iff :
    g.Refuses s (i :: word) err ↔ g.terminal s = false ∧ ∃ m, (g.moves s)[i]? = some m ∧
      (word = [] ∧ g.step s m = .error err ∨ ∃ t, g.step s m = .ok t ∧ g.Refuses t word err) := by
  constructor
  · rintro ⟨line, j, t, m, hword, hfollow, hterm, hm, hstep⟩
    cases line with
    | nil =>
      obtain ⟨rfl, rfl⟩ := List.cons.inj hword
      obtain rfl : s = t := Option.some.inj hfollow
      exact ⟨hterm, m, hm, Or.inl ⟨rfl, hstep⟩⟩
    | cons i' line =>
      obtain ⟨rfl, rfl⟩ := List.cons.inj hword
      obtain ⟨hs, m', t', hm', hstep', hline⟩ := follow_cons_eq_some_iff.mp hfollow
      exact ⟨hs, m', hm', Or.inr ⟨t', hstep', line, j, t, m, rfl, hline, hterm, hm, hstep⟩⟩
  · rintro ⟨hs, m, hm, ⟨rfl, hstep⟩ | ⟨t, hstep, line, j, u, m', rfl, hline, hterm, hm', hstep'⟩⟩
    · exact ⟨[], i, s, m, rfl, rfl, hs, hm, hstep⟩
    · exact ⟨i :: line, j, u, m', rfl, follow_cons_eq_some_iff.mpr ⟨hs, m, t, hm, hstep, hline⟩, hterm, hm', hstep'⟩

/-- A tree is sound iff nothing is refused in it. -/
theorem sound_iff : g.Sound depth s ↔ ∀ word err, word.length ≤ depth → ¬g.Refuses s word err := by
  constructor
  · rintro h _ err hlen ⟨line, i, t, m, rfl, hline, hterm, hm, hstep⟩
    have hlt : line.length < depth := by simpa using hlen
    obtain ⟨u, hu⟩ := h _ hlt t (mem_after.mpr ⟨line, rfl, hline⟩) hterm m (List.mem_of_getElem? hm)
    rw [hstep] at hu
    cases hu
  · intro h k hk t ht hterm m hm
    cases hstep : g.step t m with
    | ok u => exact ⟨u, rfl⟩
    | error err =>
      obtain ⟨line, rfl, hline⟩ := mem_after.mp ht
      obtain ⟨i, hi⟩ := List.mem_iff_getElem?.mp hm
      exact absurd ⟨line, i, t, m, rfl, hline, hterm, hi, hstep⟩ (h (line ++ [i]) err (by simpa using hk))

/-! ### The first of the refusals -/

/-- A refusal is the first one if there is none after an earlier first move, and none before it after the same one. -/
private theorem FirstRefusal.cons (hlen : word.length ≤ depth) (hrefuses : g.Refuses s (k :: word) err)
    (hclear : ∀ j < k, ∀ word err, word.length ≤ depth → ¬g.Refuses s (j :: word) err)
    (hfirst : ∀ word' err', word'.length ≤ depth → g.Refuses s (k :: word') err' → ¬word' < word) :
    g.FirstRefusal (depth + 1) s (k :: word) err where
  length_le := Nat.succ_le_succ hlen
  refuses := hrefuses
  first := by
    rintro word' err' hlen' hword' hlt
    cases word' with
    | nil =>
      obtain ⟨line, _, _, _, hnil, -⟩ := hword'
      simp at hnil
    | cons j word' =>
      have hlen' : word'.length ≤ depth := Nat.le_of_succ_le_succ hlen'
      rcases List.cons_lt_cons_iff.mp hlt with hj | ⟨rfl, hrest⟩
      · exact hclear j hj word' err' hlen' hword'
      · exact hfirst word' err' hlen' hword' hrest

/-- A refused move is the first refusal if there is none after an earlier move. -/
private theorem FirstRefusal.of_move (hs : g.terminal s = false) (hm : (g.moves s)[k]? = some m)
    (hstep : g.step s m = .error err)
    (hclear : ∀ j < k, ∀ word err, word.length ≤ depth → ¬g.Refuses s (j :: word) err) :
    g.FirstRefusal (depth + 1) s [k] err := by
  have hrefuses : g.Refuses s [k] err := refuses_cons_iff.mpr ⟨hs, m, hm, Or.inl ⟨rfl, hstep⟩⟩
  exact .cons (Nat.zero_le depth) hrefuses hclear fun word' _ _ _ => List.not_lt_nil word'

/-- The first refusal after an accepted move is the first one if there is none after an earlier move. -/
private theorem FirstRefusal.of_child (hs : g.terminal s = false) (hm : (g.moves s)[k]? = some m)
    (hstep : g.step s m = .ok t) (h : g.FirstRefusal depth t word err)
    (hclear : ∀ j < k, ∀ word err, word.length ≤ depth → ¬g.Refuses s (j :: word) err) :
    g.FirstRefusal (depth + 1) s (k :: word) err := by
  have hrefuses : g.Refuses s (k :: word) err := refuses_cons_iff.mpr ⟨hs, m, hm, Or.inr ⟨t, hstep, h.refuses⟩⟩
  refine .cons h.length_le hrefuses hclear fun word' err' hlen' hword' => ?_
  -- the same first move, so the other refusal is one of the position after it
  obtain ⟨-, m', hm', hcases⟩ := refuses_cons_iff.mp hword'
  obtain rfl : m = m' := Option.some.inj (hm.symm.trans hm')
  rcases hcases with ⟨-, herr⟩ | ⟨t', ht', hafter⟩
  · rw [hstep] at herr
    cases herr
  · obtain rfl : t = t' := Except.ok.inj (hstep.symm.trans ht')
    exact h.first word' err' hlen' hafter

end Game

namespace Search

/-! ### Where a search fails -/

/-- A scan fails at a move whose visit fails, after visits of all moves before it. -/
theorem error_of_scan {prune : Bool} {side : Side} {visit : μ → Window → Counted Float} {best : Float} {w : Window}
    {ms : List μ} {err : Error} (h : (scan prune side visit best w ms).result = .error err) :
    ∃ before m after w', ms = before ++ m :: after ∧ (visit m w').result = .error err ∧
      ∀ u ∈ before, ∃ w v, (visit u w).result = .ok v := by
  induction ms generalizing best w with
  | nil => cases h
  | cons m ms ih =>
    rw [scan, Counted.result_bind] at h
    cases hm : (visit m w).result with
    | error err' =>
      rw [hm] at h
      obtain rfl : err' = err := Except.error.inj h
      exact ⟨[], m, ms, w, rfl, hm, fun u hu => absurd hu List.not_mem_nil⟩
    | ok v =>
      rw [hm] at h
      replace h : Counted.result (if _ then _ else _) = .error err := h
      split at h
      · cases h
      · obtain ⟨before, m', after, w', rfl, hm', hbefore⟩ := ih h
        refine ⟨m :: before, m', after, w', rfl, hm', fun u hu => ?_⟩
        rcases List.mem_cons.mp hu with rfl | hu
        · exact ⟨w, v, hm⟩
        · exact hbefore u hu

/-- A search without pruning that has come back from a move has met no refusal after it. -/
private theorem not_refuses_of_visit {e : Search σ μ} (hp : e.config.pruning = false) {depth j : Nat} {s : σ} {m : μ}
    (hm : (e.game.moves s)[j]? = some m) {w : Window} {v : Float} (h : (e.visit depth s m w).result = .ok v)
    {word : List Nat} (hlen : word.length ≤ depth) (err : Error) : ¬e.game.Refuses s (j :: word) err := by
  intro hrefuses
  obtain ⟨t, ht, hvalue⟩ := step_of_visit h
  obtain ⟨-, m', hm', hcases⟩ := Game.refuses_cons_iff.mp hrefuses
  obtain rfl : m = m' := Option.some.inj (hm.symm.trans hm')
  rcases hcases with ⟨-, herr⟩ | ⟨t', ht', hrefuses'⟩
  · rw [ht] at herr
    cases herr
  · obtain rfl : t = t' := Except.ok.inj (ht.symm.trans ht')
    exact Game.sound_iff.mp (sound_of_value hp hvalue) word err hlen hrefuses'

/-- A search fails at a refusal, and without pruning at the first one. -/
theorem refuses_of_value {e : Search σ μ} {depth : Nat} {s : σ} {w : Window} {err : Error}
    (h : (e.value depth s w).result = .error err) :
    ∃ word, word.length ≤ depth ∧ e.game.Refuses s word err ∧
      (e.config.pruning = false → e.game.FirstRefusal depth s word err) := by
  induction depth generalizing s w with
  | zero =>
    rw [result_value_of_stops (Or.inr (Or.inl rfl))] at h
    cases h
  | succ depth ih =>
    rcases e.stops_or (depth + 1) s with hstop | ⟨d, hd, hs, hmoves⟩
    · rw [result_value_of_stops hstop] at h
      cases h
    · obtain rfl := Nat.succ.inj hd
      rw [result_value_succ hs hmoves] at h
      obtain ⟨before, m, after, w', hsplit, hm, hbefore⟩ := error_of_scan h
      have hget : (e.game.moves s)[before.length]? = some m := by rw [hsplit]; simp
      have hclear : e.config.pruning = false → ∀ j < before.length, ∀ word err, word.length ≤ depth →
          ¬e.game.Refuses s (j :: word) err := by
        intro hp j hj word err hlen
        obtain ⟨w, v, hv⟩ := hbefore before[j] (List.getElem_mem hj)
        have hj' : (e.game.moves s)[j]? = some before[j] := by
          rw [hsplit, List.getElem?_append_left hj, List.getElem?_eq_getElem hj]
        exact not_refuses_of_visit hp hj' hv hlen err
      cases hstep : e.game.step s m with
      | error err' =>
        -- the move itself is refused
        rw [visit, Counted.result_bind, play, Counted.result_ofExcept, hstep] at hm
        obtain rfl : err' = err := Except.error.inj hm
        exact ⟨[before.length], Nat.succ_le_succ (Nat.zero_le depth),
          Game.refuses_cons_iff.mpr ⟨hs, m, hget, Or.inl ⟨rfl, hstep⟩⟩,
          fun hp => .of_move hs hget hstep (hclear hp)⟩
      | ok t =>
        rw [result_visit hstep] at hm
        obtain ⟨word, hlen, hrefuses, hfirst⟩ := ih hm
        exact ⟨before.length :: word, Nat.succ_le_succ hlen,
          Game.refuses_cons_iff.mpr ⟨hs, m, hget, Or.inr ⟨t, hstep, hrefuses⟩⟩,
          fun hp => .of_child hs hget hstep (hfirst hp) (hclear hp)⟩

end Search

namespace Engine

/-- The same for the search from the root, where the settings pass the check. -/
private theorem refuses_of_bestMove {e : Engine σ μ} (hc : e.config.check = .ok ()) {s : σ} {depth : Nat} {err : Error}
    (h : (e.bestMove s depth).1 = .error err) :
    ∃ word, word.length ≤ depth ∧ e.game.Refuses s word err ∧
      (e.config.pruning = false → e.game.FirstRefusal depth s word err) := by
  apply Search.refuses_of_value (w := .full)
  rw [Search.result_value_full, ← bestMove_of_check hc, h]
  rfl

/-- Without pruning a search fails iff a legal move is refused within its depth, and with the error of the first such
refusal.  With pruning it fails with the error of a refusal, too. -/
theorem bestMove_error_iff_refuses {e : Engine σ μ} (hc : e.config.check = .ok ()) (s : σ) (depth : Nat) :
    ((∃ err, ((e.withPruning false).bestMove s depth).1 = .error err) ↔
        ∃ word err, word.length ≤ depth ∧ e.game.Refuses s word err) ∧
      (∀ err, ((e.withPruning false).bestMove s depth).1 = .error err →
        ∃ word, e.game.FirstRefusal depth s word err) ∧
      ∀ err, ((e.withPruning true).bestMove s depth).1 = .error err →
        ∃ word, word.length ≤ depth ∧ e.game.Refuses s word err := by
  have hoff : (e.withPruning false).config.check = .ok () := hc
  have hon : (e.withPruning true).config.check = .ok () := hc
  refine ⟨⟨?_, ?_⟩, ?_, ?_⟩
  · rintro ⟨err, h⟩
    obtain ⟨word, hlen, hrefuses, -⟩ := refuses_of_bestMove hoff h
    exact ⟨word, err, hlen, hrefuses⟩
  · rintro ⟨word, err, hlen, hrefuses⟩
    cases h : ((e.withPruning false).bestMove s depth).1 with
    | error err' => exact ⟨err', rfl⟩
    | ok r =>
      -- every move has been tried, so none is refused
      exact absurd hrefuses (Game.sound_iff.mp (sound_of_bestMove h) word err hlen)
  · intro err h
    obtain ⟨word, -, -, hfirst⟩ := refuses_of_bestMove hoff h
    exact ⟨word, hfirst rfl⟩
  · intro err h
    obtain ⟨word, hlen, hrefuses, -⟩ := refuses_of_bestMove hon h
    exact ⟨word, hlen, hrefuses⟩

/-- The grid with the last cell of its first column, cell `6`, closed to minus. -/
def cornerClosed : Engine TicTacToe.Position Nat where
  game := { TicTacToe.game with
    step := fun p i => if p.turn = .minus ∧ i = 6 then .error (.illegalMove "closed") else p.step i }

/-- Three free cells, one of them closed to minus: the search fails after the first move already. -/
theorem bestMove_error_iff_refuses_cornerClosed :
    cornerClosed.config.check = .ok () ∧
      (∃ word err, word.length ≤ 3 ∧ cornerClosed.game.Refuses .threeFree word err) ∧
      (∃ word, cornerClosed.game.FirstRefusal 3 .threeFree word (.illegalMove "closed")) ∧
      ∃ word, word.length ≤ 3 ∧ cornerClosed.game.Refuses .threeFree word (.illegalMove "closed") := by
  have hcheck : cornerClosed.config.check = .ok () := rfl
  have hplain : ((cornerClosed.withPruning false).bestMove .threeFree 3).1 = .error (.illegalMove "closed") := rfl
  have hpruned : ((cornerClosed.withPruning true).bestMove .threeFree 3).1 = .error (.illegalMove "closed") := rfl
  obtain ⟨hiff, hfirst, hany⟩ := bestMove_error_iff_refuses hcheck .threeFree 3
  exact ⟨hcheck, hiff.mp ⟨_, hplain⟩, hfirst _ hplain, hany _ hpruned⟩

end Engine

end TreeSearch
