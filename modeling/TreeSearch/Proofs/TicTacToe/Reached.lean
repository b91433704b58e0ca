import Mathlib.Data.List.Induction
import TreeSearch.Proofs.TicTacToe.Turns

/-!
# Positions of a real game

What holds of the positions that a game can come to, and does not hold of every arrangement of marks.

* `Position.afterMoves`: the position after accepted moves made in turn.
* `Position.Fair`: the sides have moved in turn, and only the side that has just moved can own a line.
* (one move) `Fair.step`: an accepted move keeps this.  It is accepted only while nobody owns a line, and the lines of
  the side that does not move stay as they are.
* (all moves) `fair_of_afterMoves`, and from it `winner_of_afterMoves`.
-/

namespace TreeSearch.TicTacToe

namespace Position

variable {p q : Position} {i : Nat} {is : List Nat} {side : Side} {line : Nat × Nat × Nat}

/-! ### Lines -/

/-- The side owns the three cells of a line. -/
def Owns (p : Position) (side : Side) (line : Nat × Nat × Nat) : Prop :=
  p.mark? line.1 = some side ∧ p.mark? line.2.1 = some side ∧ p.mark? line.2.2 = some side

private theorem owner?_eq_some_iff : p.owner? line = some side ↔ p.Owns side line := by
  unfold owner? Owns
  cases p.mark? line.1 with
  | none => simp
  | some first =>
    by_cases hfirst : first = side
    · subst hfirst
      simp
    · simp [hfirst]

private theorem not_owns_of_winner (h : p.winner = none) (hline : line ∈ lines) : ¬p.Owns side line := by
  rw [← owner?_eq_some_iff, List.findSome?_eq_none_iff.mp h line hline]
  simp

/-- Lines of the side that does not move are older than the move. -/
private theorem owns_of_place (hi : i < 9) (hside : side ≠ p.turn) (h : (p.place i).Owns side line) :
    p.Owns side line := by
  have holder : ∀ j, (p.place i).mark? j = some side → p.mark? j = some side := by
    intro j hj
    rw [mark?_place hi] at hj
    split at hj
    · exact absurd (Option.some.inj hj).symm hside
    · exact hj
  exact ⟨holder _ h.1, holder _ h.2.1, holder _ h.2.2⟩

/-! ### Marks -/

/-- The number of marks of a side. -/
def marksOf (p : Position) (side : Side) : Nat := p.cells.toList.count (some side)

private theorem marksOf_place (hi : i < 9) (hfree : p.mark? i = none) (side : Side) :
    (p.place i).marksOf side = p.marksOf side + if side = p.turn then 1 else 0 := by
  rw [marksOf, List.count_eq_countP, countP_place hi hfree rfl]
  cases side <;> cases p.turn <;> rfl

/-! ### One move -/

/-- The position looks as if the sides had moved in turn until one of them owned a line. -/
structure Fair (p : Position) : Prop where
  marksOf_plus : p.marksOf .plus = p.marksOf .minus + if p.turn = .plus then 0 else 1
  owner_eq : ∀ side, ∀ line ∈ lines, p.Owns side line → side = p.turn.opponent

private theorem fair_start : start.Fair where
  marksOf_plus := rfl
  owner_eq side line hline := by
    have hwinner : start.winner = none := rfl
    exact fun howns => absurd howns (not_owns_of_winner hwinner hline)

theorem Fair.step (h : p.Fair) (hstep : p.step i = .ok q) : q.Fair := by
  obtain ⟨hplayable, rfl⟩ := step_eq_ok_iff.mp hstep
  obtain ⟨hi, hfree, hwinner⟩ := playable_iff.mp hplayable
  constructor
  case marksOf_plus =>
    have hbefore := h.marksOf_plus
    rw [marksOf_place hi hfree, marksOf_place hi hfree, hbefore]
    show _ = _ + if p.turn.opponent = .plus then 0 else 1
    cases p.turn <;> rfl
  case owner_eq =>
    intro side line hline howns
    show side = p.turn.opponent.opponent
    rw [Side.opponent_opponent]
    by_contra hside
    exact not_owns_of_winner hwinner hline (owns_of_place hi hside howns)

/-! ### All moves -/

/-- The position after moves made in turn, if all of them are accepted. -/
def afterMoves (p : Position) (is : List Nat) : Except Error Position := is.foldlM step p

/-- The last move is made where the moves before it lead. -/
private theorem afterMoves_concat_eq_ok_iff :
    p.afterMoves (is ++ [i]) = .ok q ↔ ∃ before, p.afterMoves is = .ok before ∧ before.step i = .ok q := by
  simp only [afterMoves, List.foldlM_append, List.foldlM_cons, List.foldlM_nil, bind_pure]
  cases is.foldlM step p <;> simp [bind, Except.bind]

/-- Every position that a game comes to is fair. -/
theorem fair_of_afterMoves (h : start.afterMoves is = .ok p) : p.Fair := by
  induction is using List.reverseRecOn generalizing p with
  | nil =>
    obtain rfl := Except.ok.inj h
    exact fair_start
  | append_singleton is i ih =>
    obtain ⟨before, hbefore, hstep⟩ := afterMoves_concat_eq_ok_iff.mp h
    exact (ih hbefore).step hstep

end Position

/-- In every position that a game comes to, crosses are as many as noughts if plus is to move, and one more if minus
is; not both sides own a line; and a winner is the side that made the last move, after which no move is accepted. -/
theorem winner_of_afterMoves {is : List Nat} {p : Position} (h : Position.start.afterMoves is = .ok p) :
    (p.turn = .plus → p.marksOf .plus = p.marksOf .minus) ∧
    (p.turn = .minus → p.marksOf .plus = p.marksOf .minus + 1) ∧
    (∀ line ∈ lines, ∀ line' ∈ lines, ¬(p.Owns .plus line ∧ p.Owns .minus line')) ∧
    ∀ side, p.winner = some side → side = p.turn.opponent ∧
      (∃ before i q, is = before ++ [i] ∧ Position.start.afterMoves before = .ok q ∧ q.step i = .ok p ∧ q.turn = side) ∧
      ∀ i, ∃ e, p.step i = .error e := by
  have hfair := Position.fair_of_afterMoves h
  have hmarks := hfair.marksOf_plus
  refine ⟨fun hturn => by simpa [hturn] using hmarks, fun hturn => by simpa [hturn] using hmarks, ?_, ?_⟩
  · rintro line hline line' hline' ⟨hplus, hminus⟩
    have hsame : Side.plus = Side.minus :=
      (hfair.owner_eq _ _ hline hplus).trans (hfair.owner_eq _ _ hline' hminus).symm
    cases hsame
  · intro side hwinner
    obtain ⟨line, hline, howner⟩ := List.exists_of_findSome?_eq_some hwinner
    have hside := hfair.owner_eq side line hline (Position.owner?_eq_some_iff.mp howner)
    refine ⟨hside, ?_, fun i => ?_⟩
    · rcases List.eq_nil_or_concat is with rfl | ⟨before, i, rfl⟩
      · obtain rfl := Except.ok.inj h
        cases hwinner
      · rw [List.concat_eq_append] at h ⊢
        obtain ⟨q, hq, hstep⟩ := Position.afterMoves_concat_eq_ok_iff.mp h
        refine ⟨before, i, q, rfl, hq, hstep, ?_⟩
        rw [hside, (Position.marks_of_step hstep).turn_eq, Side.opponent_opponent]
    · have hplayable : p.playable i = false := by simp [Position.playable, hwinner]
      exact ⟨_, Position.step_of_not_playable hplayable⟩

/-- Plus fills the top row with its third mark. -/
theorem winner_of_afterMoves_topRow :
    let p : Position :=
      ⟨#v[some .plus, some .plus, some .plus, some .minus, some .minus, none, none, none, none], .minus⟩
    Position.start.afterMoves [0, 3, 1, 4, 2] = .ok p ∧ p.marksOf .plus = 3 ∧ p.marksOf .minus = 2 ∧
      p.Owns .plus (0, 1, 2) ∧ (∀ line ∈ lines, ¬p.Owns .minus line) ∧ p.winner = some .plus ∧
      ∀ i, ∃ e, p.step i = .error e := by
  intro p
  have hreached : Position.start.afterMoves [0, 3, 1, 4, 2] = .ok p := by rfl
  have hrow : p.Owns .plus (0, 1, 2) := ⟨rfl, rfl, rfl⟩
  have hwinner : p.winner = some .plus := by rfl
  obtain ⟨-, -, hone, hlast⟩ := winner_of_afterMoves hreached
  obtain ⟨-, -, hstop⟩ := hlast .plus hwinner
  have hminus : ∀ line ∈ lines, ¬p.Owns .minus line := fun line hline howns =>
    hone (0, 1, 2) (by decide) line hline ⟨hrow, howns⟩
  exact ⟨hreached, rfl, rfl, hrow, hminus, hwinner, hstop⟩

end TreeSearch.TicTacToe
