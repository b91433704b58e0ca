import Mathlib.Data.List.Perm.Subperm
import Mathlib.Tactic.TFAE
import TreeSearch.Proofs.Sudoku.Houses

/-!
# Solved boards

Three descriptions of a solved board, each read off another part of the geometry.

* `Board.HoldsOnce b part`: the cells are parted into nine parts, and each part holds each digit exactly once.
* (pigeonhole) `distinctDigits_iff_perm`: nine different digits are all the digits, in some order.
* (houses) `holdsOnce_iff_perm`: a part holds each digit once iff its numbers are the digits in some order.
* (candidates) `mem_candidates_erase`: what a cell holds is a candidate once the cell is empty iff it is a digit that no
  cell seen from there holds.
* (any board) `Board.isSolved_tfae`: the check of the houses, the digits in rows, columns and blocks, and the candidates
  agree.
-/

namespace TreeSearch.Sudoku

private theorem row_mem_houses (k : Fin 9) : row k ∈ houses := mem_houses.mpr ⟨k, Or.inl rfl⟩

private theorem column_mem_houses (k : Fin 9) : column k ∈ houses := mem_houses.mpr ⟨k, Or.inr (Or.inl rfl)⟩

private theorem block_mem_houses (k : Fin 9) : block k ∈ houses := mem_houses.mpr ⟨k, Or.inr (Or.inr rfl)⟩

/-- The houses have nine cells. -/
private theorem length_of_mem_houses {house : List Cell} (h : house ∈ houses) : house.length = 9 := by
  obtain ⟨k, rfl | rfl | rfl⟩ := mem_houses.mp h
  all_goals exact (List.length_map _).trans List.length_finRange

namespace Board

/-- Where the cells are told apart by `part`, each of the nine parts holds each digit exactly once. -/
def HoldsOnce (b : Board) (part : Cell → Fin 9) : Prop :=
  ∀ k x, 1 ≤ x → x ≤ 9 → ∃! i, part i = k ∧ b[i] = x

/-! ### Houses -/

/-- Nine numbers are different digits iff they are all the digits in some order. -/
theorem distinctDigits_iff_perm {xs : List Nat} (h : xs.length = 9) :
    distinctDigits xs = true ↔ xs.Perm (List.range' 1 9) := by
  rw [distinctDigits_iff]
  constructor
  · rintro ⟨hdigit, hnodup⟩
    have hsubset : xs ⊆ List.range' 1 9 := by
      intro x hx
      have hrange := hdigit x hx
      exact List.mem_range'_1.mpr (by omega)
    exact (List.subperm_of_subset hnodup hsubset).perm_of_length_le (Nat.le_of_eq h.symm)
  · intro hperm
    refine ⟨fun x hx => ?_, hperm.nodup_iff.mpr List.nodup_range'⟩
    have hrange := List.mem_range'_1.mp (hperm.mem_iff.mp hx)
    omega

/-- A board holds each digit once in each of nine parts iff the numbers of each part are the digits in some order. -/
theorem holdsOnce_iff_perm {b : Board} {part : Cell → Fin 9} {cells : Fin 9 → List Cell}
    (hmem : ∀ k i, i ∈ cells k ↔ part i = k) (hhouse : ∀ k, cells k ∈ houses) :
    b.HoldsOnce part ↔ ∀ k, ((cells k).map fun i => b[i]).Perm (List.range' 1 9) := by
  have hlength : ∀ k, ((cells k).map fun i => b[i]).length = 9 := by
    intro k
    rw [List.length_map, length_of_mem_houses (hhouse k)]
  constructor
  · intro honce k
    -- all the digits are there, and there is no place for anything else
    have hsubset : List.range' 1 9 ⊆ (cells k).map fun i => b[i] := by
      intro x hx
      have hrange := List.mem_range'_1.mp hx
      obtain ⟨i, ⟨hi, hx⟩, -⟩ := honce k x (by omega) (by omega)
      exact List.mem_map.mpr ⟨i, (hmem k i).mpr hi, hx⟩
    exact ((List.subperm_of_subset List.nodup_range' hsubset).perm_of_length_le (Nat.le_of_eq (hlength k))).symm
  · intro hperm k x hpos hle
    have hx : x ∈ (cells k).map fun i => b[i] :=
      (hperm k).mem_iff.mpr (List.mem_range'_1.mpr (by omega))
    have hnodup : ((cells k).map fun i => b[i]).Nodup := (hperm k).nodup_iff.mpr List.nodup_range'
    have hinj := (List.nodup_map_iff_inj_on (nodup_of_mem_houses (hhouse k))).mp hnodup
    obtain ⟨i, hi, hix⟩ := List.mem_map.mp hx
    refine ⟨i, ⟨(hmem k i).mp hi, hix⟩, ?_⟩
    rintro j ⟨hj, hjx⟩
    exact hinj j ((hmem k j).mpr hj) i hi (hjx.trans hix.symm)

/-- A board is solved iff each row, each column and each block holds each digit exactly once. -/
private theorem isSolved_iff_holdsOnce {b : Board} :
    b.isSolved = true ↔ b.HoldsOnce rowOf ∧ b.HoldsOnce colOf ∧ b.HoldsOnce blockOf := by
  rw [holdsOnce_iff_perm (fun _ _ => mem_row) row_mem_houses,
    holdsOnce_iff_perm (fun _ _ => mem_column) column_mem_houses,
    holdsOnce_iff_perm (fun _ _ => mem_block) block_mem_houses, isSolved, List.all_eq_true]
  have hperm : ∀ house ∈ houses, distinctDigits (house.map fun i => b[i]) = true ↔
      (house.map fun i => b[i]).Perm (List.range' 1 9) := by
    intro house hhouse
    exact distinctDigits_iff_perm (by rw [List.length_map, length_of_mem_houses hhouse])
  constructor
  · intro h
    refine ⟨fun k => ?_, fun k => ?_, fun k => ?_⟩
    · exact (hperm _ (row_mem_houses k)).mp (h _ (row_mem_houses k))
    · exact (hperm _ (column_mem_houses k)).mp (h _ (column_mem_houses k))
    · exact (hperm _ (block_mem_houses k)).mp (h _ (block_mem_houses k))
  · rintro ⟨hrow, hcolumn, hblock⟩ house hhouse
    rw [hperm house hhouse]
    obtain ⟨k, rfl | rfl | rfl⟩ := mem_houses.mp hhouse
    · exact hrow k
    · exact hcolumn k
    · exact hblock k

/-! ### Candidates -/

/-- There is an answer with a number among it iff the peers can be read and the number is a candidate. -/
theorem exists_mem_candidates?_iff {b : Board} {i : Cell} {x : Nat} :
    (∃ xs, b.candidates? i = some xs ∧ x ∈ xs) ↔ b.readable i = true ∧ x ∈ b.candidates i := by
  unfold candidates?
  split
  · rename_i h
    simp [h]
  · rename_i h
    simp [h]

/-- What a cell holds is a candidate for the emptied cell iff it is a digit and no cell seen from there holds it. -/
theorem mem_candidates_erase {b : Board} {i : Cell} :
    b[i] ∈ (b.erase i).candidates i ↔ (1 ≤ b[i] ∧ b[i] ≤ 9) ∧ ∀ j, Sees i j → b[i] ≠ b[j] := by
  rw [mem_candidates]
  refine and_congr_right fun hdigit => ?_
  constructor
  · intro h j hij
    have hj := h j hij.mem_peers
    rw [erase, getElem_put, if_neg hij.1] at hj
    exact hj.symm
  · intro h j hj
    rw [erase, getElem_put]
    split
    · omega
    · rename_i hij
      exact (h j (sees_of_mem_peers hj hij)).symm

/-- A board is solved iff whichever cell is emptied, its candidates can be read, and what it held is among them. -/
private theorem isSolved_iff_candidates {b : Board} :
    b.isSolved = true ↔ ∀ i, ∃ xs, (b.erase i).candidates? i = some xs ∧ b[i] ∈ xs := by
  simp only [isSolved_iff, exists_mem_candidates?_iff, mem_candidates_erase]
  constructor
  · rintro ⟨hdigit, hdiff⟩ i
    have hdigits : b.Digits := fun j => (hdigit j).2
    exact ⟨(hdigits.erase i).readable i, hdigit i, hdiff i⟩
  · intro h
    exact ⟨fun i => (h i).2.1, fun i => (h i).2.2⟩

/-- These say the same: the check of the houses succeeds; every row, every column and every block holds each digit
exactly once; whichever cell is emptied, its candidates can be read, and what it held is among them. -/
theorem isSolved_tfae (b : Board) :
    List.TFAE [b.isSolved = true, b.HoldsOnce rowOf ∧ b.HoldsOnce colOf ∧ b.HoldsOnce blockOf,
      ∀ i, ∃ xs, (b.erase i).candidates? i = some xs ∧ b[i] ∈ xs] := by
  tfae_have 1 ↔ 2 := isSolved_iff_holdsOnce
  tfae_have 1 ↔ 3 := isSolved_iff_candidates
  tfae_finish

end Board

end TreeSearch.Sudoku
