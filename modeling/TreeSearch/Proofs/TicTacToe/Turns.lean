import TreeSearch.Proofs.Game.Protocol
import TreeSearch.Proofs.TicTacToe.Rules

/-!
# Turns

What a move does to the grid, and how long a game can last; all of it at any arrangement of marks, reachable or not.

* `Position.Marks`: a position comes from another one by marking a cell, and by nothing else.
* `Position.Regular`: the four places in which the rules speak of moves agree, and an accepted move marks its cell.
* (one move) `countP_place`: marking a free cell adds one to the counts of marks that take in the new one.
* (whole game) `rules_agree_and_play_stops`: so a game has at most as many moves as there are free cells, whoever plays.
-/

namespace TreeSearch.TicTacToe

namespace Position

/-- `q` is `p` with cell `i` marked for the side that was to move. -/
structure Marks (p : Position) (i : Nat) (q : Position) : Prop where
  mark?_eq : ∀ j, q.mark? j = if i = j then some p.turn else p.mark? j
  turn_eq : q.turn = p.turn.opponent
  played_eq : q.played = p.played + 1

/-- The rules agree with each other at the position. -/
structure Regular (p : Position) : Prop where
  accepted_iff : ∀ i, (∃ q, p.step i = .ok q) ↔ p.playable i = true
  playable_iff_mem : ∀ i, p.playable i = true ↔ i ∈ p.moves
  refused : ∀ i, i ∉ p.moves →
    p.step i = .error (.illegalMove ("cell " ++ toString i ++ " is not playable for " ++ p.turn.text))
  ascending : p.moves.Pairwise (· < ·)
  terminal_iff : p.terminal = true ↔ p.moves = []
  marks : ∀ i q, p.step i = .ok q → p.Marks i q

variable {p q : Position} {i : Nat}

/-! ### One move -/

theorem playable_iff : p.playable i = true ↔ i < 9 ∧ p.mark? i = none ∧ p.winner = none := by
  simp [playable, and_assoc]

theorem step_of_not_playable (h : p.playable i = false) :
    p.step i = .error (.illegalMove ("cell " ++ toString i ++ " is not playable for " ++ p.turn.text)) := by
  rw [step, h]
  rfl

theorem step_eq_ok_iff : p.step i = .ok q ↔ p.playable i = true ∧ p.place i = q := by
  cases h : p.playable i with
  | true => rw [step_of_playable h]; simp
  | false => rw [step_of_not_playable h]; simp

private theorem cell_of_mark? (hi : i < 9) (hfree : p.mark? i = none) : p.cells[i] = none := by
  rw [mark?, Vector.getElem?_eq_getElem hi] at hfree
  exact hfree

/-- Marking a free cell adds one to every count that leaves out free cells and takes in the new mark. -/
theorem countP_place (hi : i < 9) (hfree : p.mark? i = none) {f : Option Side → Bool} (hf : f none = false) :
    (p.place i).cells.toList.countP f = p.cells.toList.countP f + (f (some p.turn)).toNat := by
  have hlength : i < p.cells.toList.length := by simpa using hi
  have hcell : p.cells.toList[i] = none := by rw [Vector.getElem_toList, cell_of_mark? hi hfree]
  rw [place, Vector.toList_setIfInBounds, List.countP_set hlength, hcell, hf]
  cases f (some p.turn) <;> rfl

theorem marks_of_step (h : p.step i = .ok q) : p.Marks i q := by
  obtain ⟨hplayable, rfl⟩ := step_eq_ok_iff.mp h
  obtain ⟨hi, hfree, -⟩ := playable_iff.mp hplayable
  exact ⟨mark?_place hi, rfl, countP_place hi hfree rfl⟩

/-! ### The rules agree -/

private theorem moves_pairwise (p : Position) : p.moves.Pairwise (· < ·) := by
  unfold moves
  split
  · exact .nil
  · exact List.pairwise_lt_range.filter _

private theorem moves_eq_nil_of_terminal (h : p.terminal = true) : p.moves = [] := by
  rw [List.eq_nil_iff_forall_not_mem]
  intro i hmem
  obtain ⟨hi, hfree, hwinner⟩ := playable_iff.mp (mem_moves.mp hmem)
  have hfull : p.isFull = true := by simpa [terminal, hwinner] using h
  have hmarked : p.cells[i].isSome = true := List.all_eq_true.mp hfull _ (by simp)
  rw [cell_of_mark? hi hfree] at hmarked
  cases hmarked

theorem regular (p : Position) : p.Regular where
  accepted_iff i := by simp [step_eq_ok_iff]
  playable_iff_mem i := mem_moves.symm
  refused i hi := step_of_not_playable (by simpa [mem_moves] using hi)
  ascending := p.moves_pairwise
  terminal_iff := by
    refine ⟨moves_eq_nil_of_terminal, fun hnil => ?_⟩
    rw [← Bool.not_eq_false]
    exact fun hs => moves_ne_nil hs hnil
  marks i q h := marks_of_step h

/-! ### Counting the cells left -/

theorem played_le (p : Position) : p.played ≤ 9 := by
  have hle := List.countP_le_length (p := Option.isSome) (l := p.cells.toList)
  simpa [played] using hle

private theorem played_lt_of_unfinished (h : p.terminal = false) : p.played < 9 := by
  refine Nat.lt_of_le_of_ne p.played_le fun hplayed => ?_
  have hfull : p.isFull = true := by
    rw [isFull, List.all_eq_true]
    exact List.countP_eq_length.mp (by simpa [played] using hplayed)
  simp [terminal, hfull] at h

end Position

/-- The rules agree at every position.  A game that starts there stops after at most as many moves as there are free
cells, whatever the two players are like; the record does not depend on the limit that the loop is given. -/
theorem rules_agree_and_play_stops (p : Position) :
    p.Regular ∧ ∀ {ι κ : Type} (t : Table Position Nat ι κ) (i₀ : ι) (k₀ : κ),
      ∃ r n position plus minus, t.Conducted game p i₀ k₀ r n position plus minus ∧ n ≤ 9 - p.played ∧
        (∀ j ≤ n, (position j).played = p.played + j) ∧ ∀ limit ≥ 9 - p.played, t.play game limit p i₀ k₀ = some r := by
  refine ⟨p.regular, ?_⟩
  intro ι κ t i₀ k₀
  have hpos : ∀ q, game.terminal q = false → 0 < 9 - q.played := fun q hq => by
    have := Position.played_lt_of_unfinished hq
    omega
  have hlower : ∀ q i next, game.terminal q = false → game.step q i = .ok next → 9 - next.played < 9 - q.played := by
    intro q i next hq hstep
    have := Position.played_lt_of_unfinished hq
    have := (Position.marks_of_step hstep).played_eq
    omega
  obtain ⟨r, hr⟩ := t.exists_play_of_size hpos hlower p i₀ k₀
  obtain ⟨-, n, position, plus, minus, hconducted⟩ := Table.conducted_of_play (hr _ (Nat.le_refl _))
  have hplayed : ∀ j ≤ n, (position j).played = p.played + j := by
    intro j hj
    induction j with
    | zero => rw [hconducted.position_zero, Nat.add_zero]
    | succ j ih =>
      obtain ⟨-, m, -, -, hstep⟩ := hconducted.moved j hj
      rw [(Position.marks_of_step hstep).played_eq, ih (Nat.le_of_succ_le hj), Nat.add_assoc]
  refine ⟨r, n, position, plus, minus, hconducted, ?_, hplayed, hr⟩
  have := hplayed n (Nat.le_refl n)
  have := (position n).played_le
  omega

/-- Two players that go through the cells of one parity fill the three free cells. -/
theorem rules_agree_and_play_stops_threeFree :
    let p := Position.threeFree
    let t : Table Position Nat Nat Nat :=
      ⟨⟨"even", fun _ i => (.ok (some i), i + 2)⟩, ⟨"odd", fun _ i => (.ok (some i), i + 2)⟩⟩
    p.Regular ∧ ∃ r n position plus minus, t.Conducted game p 4 5 r n position plus minus ∧ n ≤ 3 ∧
      (∀ j ≤ n, (position j).played = 6 + j) ∧ t.play game 3 p 4 5 = some r ∧ r.requests.length = 3 := by
  intro p t
  have hlength : (t.play game 3 p 4 5).map (fun r => r.requests.length) = some 3 := by rfl
  obtain ⟨hregular, hplay⟩ := rules_agree_and_play_stops p
  obtain ⟨r, n, position, plus, minus, hconducted, hn, hplayed, hr⟩ := hplay t 4 5
  have hrun : t.play game 3 p 4 5 = some r := hr 3 (by decide)
  rw [hrun] at hlength
  exact ⟨hregular, r, n, position, plus, minus, hconducted, hn, hplayed, hrun, Option.some.inj hlength⟩

end TreeSearch.TicTacToe
