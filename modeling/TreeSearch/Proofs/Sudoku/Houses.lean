import Mathlib.Data.List.Nodup
import TreeSearch.Sudoku.Text

/-!
# Cells that see each other

* `Sees i j`: two different cells share a row, a column or a block.
* (houses) `sees_iff_house`: they do iff some house holds both; no house holds a cell twice.
* (solved boards) `Board.isSolved_iff`: a board is solved iff every cell holds a digit and no two cells that see each
  other hold the same one.
* (text) `Board.digits_ofText`: a board read from a text holds nothing but digits and blanks.
-/

namespace TreeSearch.Sudoku

/-- Two different cells share a row, a column or a block. -/
def Sees (i j : Cell) : Prop := i ≠ j ∧ (rowOf i = rowOf j ∨ colOf i = colOf j ∨ blockOf i = blockOf j)

instance (i j : Cell) : Decidable (Sees i j) := inferInstanceAs (Decidable (_ ∧ _))

theorem Sees.symm {i j : Cell} (h : Sees i j) : Sees j i :=
  ⟨h.1.symm, h.2.imp Eq.symm (Or.imp Eq.symm Eq.symm)⟩

theorem Sees.mem_peers {i j : Cell} (h : Sees i j) : j ∈ peers i :=
  Sudoku.mem_peers.mpr (h.2.imp Eq.symm (Or.imp Eq.symm Eq.symm))

theorem sees_of_mem_peers {i j : Cell} (h : j ∈ peers i) (hne : i ≠ j) : Sees i j :=
  ⟨hne, (Sudoku.mem_peers.mp h).imp Eq.symm (Or.imp Eq.symm Eq.symm)⟩

/-! ### Houses -/

theorem mem_houses {house : List Cell} :
    house ∈ houses ↔ ∃ k, house = row k ∨ house = column k ∨ house = block k := by
  simp [houses]

theorem sees_iff_house {i j : Cell} : Sees i j ↔ i ≠ j ∧ ∃ house ∈ houses, i ∈ house ∧ j ∈ house := by
  refine and_congr_right fun _ => ?_
  constructor
  · rintro (h | h | h)
    · exact ⟨row (rowOf j), mem_houses.mpr ⟨_, Or.inl rfl⟩, mem_row.mpr h, mem_row.mpr rfl⟩
    · exact ⟨column (colOf j), mem_houses.mpr ⟨_, Or.inr (Or.inl rfl)⟩, mem_column.mpr h, mem_column.mpr rfl⟩
    · exact ⟨block (blockOf j), mem_houses.mpr ⟨_, Or.inr (Or.inr rfl)⟩, mem_block.mpr h, mem_block.mpr rfl⟩
  · rintro ⟨house, hhouse, hi, hj⟩
    obtain ⟨k, rfl | rfl | rfl⟩ := mem_houses.mp hhouse
    · exact Or.inl ((mem_row.mp hi).trans (mem_row.mp hj).symm)
    · exact Or.inr (Or.inl ((mem_column.mp hi).trans (mem_column.mp hj).symm))
    · exact Or.inr (Or.inr ((mem_block.mp hi).trans (mem_block.mp hj).symm))

private theorem exists_house (i : Cell) : ∃ house ∈ houses, i ∈ house :=
  ⟨row (rowOf i), mem_houses.mpr ⟨_, Or.inl rfl⟩, mem_row.mpr rfl⟩

theorem nodup_of_mem_houses {house : List Cell} (h : house ∈ houses) : house.Nodup := by
  obtain ⟨k, rfl | rfl | rfl⟩ := mem_houses.mp h
  all_goals
    refine (List.nodup_finRange 9).map ?_
    intro i j hij
    simp only [cellAt, Fin.mk.injEq] at hij
    omega

namespace Board

/-! ### Solved boards -/

/-- Every cell is blank or holds a digit. -/
def Digits (b : Board) : Prop := ∀ i : Cell, b[i] ≤ 9

instance (b : Board) : Decidable b.Digits := inferInstanceAs (Decidable (∀ i : Cell, b[i] ≤ 9))

/-- No two cells that see each other hold the same number, blanks apart. -/
def Consistent (b : Board) : Prop := ∀ i j, Sees i j → b[i] ≠ 0 → b[i] ≠ b[j]

instance (b : Board) : Decidable b.Consistent :=
  inferInstanceAs (Decidable (∀ i j, Sees i j → b[i] ≠ 0 → b[i] ≠ b[j]))

theorem distinctDigits_iff {xs : List Nat} :
    distinctDigits xs = true ↔ (∀ x ∈ xs, 1 ≤ x ∧ x ≤ 9) ∧ xs.Nodup := by
  induction xs with
  | nil => simp [distinctDigits]
  | cons x xs ih =>
    simp only [distinctDigits, Bool.and_eq_true, ih, decide_eq_true_eq, Bool.not_eq_true', List.contains_eq_mem,
      decide_eq_false_iff_not, List.mem_cons, forall_eq_or_imp, List.nodup_cons]
    tauto

/-- A board is solved iff its cells hold digits, and different ones where they see each other. -/
theorem isSolved_iff {b : Board} :
    b.isSolved = true ↔ (∀ i : Cell, 1 ≤ b[i] ∧ b[i] ≤ 9) ∧ ∀ i j, Sees i j → b[i] ≠ b[j] := by
  simp only [isSolved, List.all_eq_true, distinctDigits_iff, List.forall_mem_map]
  constructor
  · intro h
    refine ⟨fun i => ?_, fun i j hij => ?_⟩
    · obtain ⟨house, hhouse, hi⟩ := exists_house i
      exact (h house hhouse).1 i hi
    · obtain ⟨hne, house, hhouse, hi, hj⟩ := sees_iff_house.mp hij
      intro heq
      have hinj := (List.nodup_map_iff_inj_on (nodup_of_mem_houses hhouse)).mp (h house hhouse).2
      exact hne (hinj i hi j hj heq)
  · rintro ⟨hdigit, hdiff⟩ house hhouse
    refine ⟨fun i _ => hdigit i, ?_⟩
    rw [List.nodup_map_iff_inj_on (nodup_of_mem_houses hhouse)]
    intro i hi j hj heq
    by_contra hne
    exact hdiff i j (sees_iff_house.mpr ⟨hne, house, hhouse, hi, hj⟩) heq

/-! ### Boards of digits and blanks -/

theorem Digits.put {b : Board} (h : b.Digits) (i : Cell) {x : Nat} (hx : x ≤ 9) : (b.put i x).Digits := by
  intro j
  rw [getElem_put]
  split
  · exact hx
  · exact h j

theorem Digits.erase {b : Board} (h : b.Digits) (i : Cell) : (b.erase i).Digits := h.put i (Nat.zero_le 9)

theorem Digits.readable {b : Board} (h : b.Digits) (i : Cell) : b.readable i = true := by
  simp only [Board.readable, List.all_eq_true, decide_eq_true_eq]
  exact fun j _ => h j

private theorem cellOfChar_le (c : Char) : cellOfChar c ≤ 9 := by
  unfold cellOfChar
  split
  · rename_i h
    have hle : c.toNat ≤ '9'.toNat := h.2
    have h9 : '9'.toNat = 57 := rfl
    have h0 : '0'.toNat = 48 := rfl
    omega
  · omega

/-- A board read from a text holds nothing but digits and blanks. -/
theorem digits_ofText {text : String} {b : Board} (h : ofText text = .ok b) : b.Digits := by
  unfold ofText at h
  simp only at h
  split at h
  · obtain rfl := Except.ok.inj h
    intro i
    show (Vector.mk ((Text.trim text.toList).map cellOfChar).toArray _)[i.val] ≤ 9
    rw [Vector.getElem_mk, List.getElem_toArray, List.getElem_map]
    exact cellOfChar_le _
  · cases h

end Board

end TreeSearch.Sudoku
