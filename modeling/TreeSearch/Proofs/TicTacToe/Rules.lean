import TreeSearch.Game.Engine
import TreeSearch.Game.Line
import TreeSearch.TicTacToe

/-!
# The rules of noughts and crosses

* (legal moves) `mem_moves`: the moves of a position are its playable cells, and exactly these are accepted.
* (unfinished positions) `moves_ne_nil`: while nobody has won and a cell is free, there is a move.
* (whole game) `honest`: so the game is honest from every position, reachable or not.
-/

namespace TreeSearch.TicTacToe

namespace Position

theorem mem_moves {p : Position} {i : Nat} : i ∈ p.moves ↔ p.playable i = true := by
  unfold moves playable
  cases h : p.winner <;> simp

theorem step_of_playable {p : Position} {i : Nat} (h : p.playable i = true) : p.step i = .ok (p.place i) := by
  rw [step, if_pos h]

/-- A grid that is not full has a free cell. -/
private theorem exists_free {p : Position} (h : p.isFull = false) : ∃ i < 9, p.mark? i = none := by
  rw [isFull, List.all_eq_false] at h
  obtain ⟨c, hc, hnone⟩ := h
  obtain rfl : c = none := by simpa using hnone
  obtain ⟨i, hi, hget⟩ := List.getElem_of_mem hc
  have hi' : i < 9 := by simpa using hi
  rw [Vector.getElem_toList] at hget
  exact ⟨i, hi', by rw [mark?, Vector.getElem?_eq_getElem hi', hget]; rfl⟩

theorem moves_ne_nil {p : Position} (h : p.terminal = false) : p.moves ≠ [] := by
  rw [terminal, Bool.or_eq_false_iff] at h
  obtain ⟨i, hi, hfree⟩ := exists_free h.2
  have hwin : p.winner = none := by simpa using h.1
  have hplay : p.playable i = true := by simp [playable, hi, hfree, hwin]
  exact List.ne_nil_of_mem (mem_moves.mpr hplay)

end Position

theorem honest (p : Position) : game.Honest p where
  step_ok q _ _ i hi := ⟨q.place i, Position.step_of_playable (Position.mem_moves.mp hi)⟩
  moves_ne _ _ hq := Position.moves_ne_nil hq

/-- A search of the game with the default settings. -/
def engine : Engine Position Nat := { game }

/-- A grid with plus to move and three free cells. -/
def Position.threeFree : Position where
  cells := #v[some .plus, some .minus, some .plus, some .minus, none, none, none, some .plus, some .minus]
  turn := .plus

theorem endsWithin_threeFree : game.EndsWithin 3 .threeFree := by
  unfold Game.EndsWithin
  decide +kernel

end TreeSearch.TicTacToe
