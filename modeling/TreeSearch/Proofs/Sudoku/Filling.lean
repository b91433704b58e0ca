import TreeSearch.Constraint.Network
import TreeSearch.Proofs.Sudoku.Houses
import TreeSearch.Sudoku.Solve

/-!
# Filling the blanks

* `Board.Fills b f`: the board `f` keeps what `b` holds and has a digit in every blank of `b`, other than the numbers
  in the cells that the blank sees.
* (network) `presents_network`: the sudoku problem is the network of cells and digits in which cells that see each
  other differ; `Board.fills_iff`: its completions are the fillings.
* (solved boards) `Board.Fills.isSolved_iff`: a filling is solved iff no two givens contradict each other.
-/

namespace TreeSearch.Sudoku

/-- Digits in cells, different ones where cells see each other. -/
def network : Network Cell Nat where
  vars := List.finRange 81
  base _ := List.range' 1 9
  compatible i x j y := Sees i j → x ≠ y
  nodup := List.nodup_finRange 81
  symm _ _ _ _ _ h hs := (h hs.symm).symm

namespace Board

/-- What is in the cells, as an assignment. -/
def value (b : Board) : Assignment Cell Nat := fun i => if b[i] = 0 then none else some b[i]

private theorem value_eq_none_iff {b : Board} {i : Cell} : b.value i = none ↔ b[i] = 0 := by
  unfold value
  split <;> simp_all

private theorem value_eq_some_iff {b : Board} {i : Cell} {x : Nat} : b.value i = some x ↔ b[i] = x ∧ x ≠ 0 := by
  unfold value
  split
  · rename_i h
    simp only [reduceCtorEq, false_iff]
    omega
  · rename_i h
    rw [Option.some.injEq]
    exact ⟨fun hx => ⟨hx, hx ▸ h⟩, And.left⟩

private theorem isSome_value_iff {b : Board} {i : Cell} : (b.value i).isSome ↔ b[i] ≠ 0 := by
  rw [Option.isSome_iff_ne_none, ne_eq, value_eq_none_iff]

private theorem value_put {b : Board} {i : Cell} {x : Nat} (hx : x ≠ 0) : (b.put i x).value = b.value.set i x := by
  funext j
  simp only [value, Assignment.set, getElem_put]
  by_cases h : i = j
  · simp [h, hx]
  · simp [h, Ne.symm h]

private theorem value_erase (b : Board) (i : Cell) : (b.erase i).value = b.value.unset i := by
  funext j
  simp only [value, Assignment.unset, erase, getElem_put]
  by_cases h : i = j
  · simp [h]
  · simp [h, Ne.symm h]

private theorem mem_blanks {b : Board} {i : Cell} : i ∈ b.blanks ↔ b[i] = 0 := by
  simp [blanks]

private theorem isFull_iff {b : Board} : b.isFull = true ↔ ∀ i : Cell, b[i] ≠ 0 := by
  rw [isFull, Bool.not_eq_true', ← Bool.not_eq_true, Vector.contains_iff_mem, Vector.mem_iff_getElem]
  constructor
  · intro h i hi
    exact h ⟨i, i.isLt, hi⟩
  · rintro h ⟨i, hi, hb⟩
    exact h ⟨i, hi⟩ hb

private theorem put_erase {b : Board} {i : Cell} (h : b[i] = 0) (x : Nat) : (b.put i x).erase i = b := by
  ext j
  rw [erase, getElem_put, getElem_put]
  split
  · rename_i hij
    rw [← hij, h]
  · rfl

/-- A cell may take the digits that no cell it sees holds. -/
private theorem mem_candidates_iff_fits {b : Board} {i : Cell} (hi : b[i] = 0) {x : Nat} :
    x ∈ b.candidates i ↔ x ∈ network.base i ∧ network.Fits b.value i x := by
  rw [mem_candidates]
  simp only [network, Network.Fits, List.mem_range'_1, value_eq_some_iff]
  constructor
  · rintro ⟨hx, hpeers⟩
    refine ⟨by omega, ?_⟩
    rintro j - - y ⟨rfl, -⟩ hs
    exact (hpeers j hs.mem_peers).symm
  · rintro ⟨hx, hfits⟩
    refine ⟨by omega, ?_⟩
    intro j hj heq
    by_cases hji : i = j
    · subst hji
      omega
    · exact hfits j (List.mem_finRange j) (Ne.symm hji) x ⟨heq, by omega⟩ (sees_of_mem_peers hj hji) rfl

end Board

/-- The sudoku problem is the network of cells and digits. -/
theorem presents_network : network.Presents problem Board.value where
  openVars_eq b := by
    show b.blanks = _
    refine List.filter_congr fun i _ => ?_
    rw [← Option.not_isSome, Bool.eq_iff_iff, decide_eq_true_eq, Bool.not_eq_true', ← Bool.not_eq_true,
      Board.isSome_value_iff, not_not]
  mem_domain b i hi x := Board.mem_candidates_iff_fits (Board.mem_blanks.mp hi)
  value_assign b i _ x hx := by
    have h : 1 ≤ x := (List.mem_range'_1.mp hx).1
    exact Board.value_put (by omega)
  value_clear b i _ := b.value_erase i
  complete_iff b := by
    show b.isFull = true ↔ _
    simp only [Board.isFull_iff, Board.isSome_value_iff]
    exact ⟨fun h i _ => h i, fun h i => h i (List.mem_finRange i)⟩

theorem checks_network : network.Checks problem := fun _ _ _ => rfl

/-- Erasing a cell that was blank undoes what was put there. -/
theorem clearUndoesAssign_problem : problem.ClearUndoesAssign :=
  fun _ _ hi _ _ => Board.put_erase (Board.mem_blanks.mp hi) _

namespace Board

/-- A board that keeps what `b` holds and has, in every blank of `b`, a digit that no cell seen from there holds. -/
structure Fills (b f : Board) : Prop where
  keeps : ∀ i : Cell, b[i] ≠ 0 → f[i] = b[i]
  digit : ∀ i : Cell, b[i] = 0 → 1 ≤ f[i] ∧ f[i] ≤ 9
  differs : ∀ i j : Cell, b[i] = 0 → Sees i j → f[i] ≠ f[j]

private theorem Fills.ne_zero {b f : Board} (h : b.Fills f) (i : Cell) : f[i] ≠ 0 := by
  by_cases hi : b[i] = 0
  · have := h.digit i hi
    omega
  · rw [h.keeps i hi]
    exact hi

/-- The correct completions of the network are the fillings. -/
theorem fills_iff {b f : Board} : network.Fills b.value f.value ↔ b.Fills f := by
  constructor
  · rintro ⟨htotal, hkeeps, hfilled⟩
    have hfull : ∀ i : Cell, f.value i = some f[i] := by
      intro i
      exact value_eq_some_iff.mpr ⟨rfl, isSome_value_iff.mp (htotal i (List.mem_finRange i))⟩
    refine ⟨fun i hi => ?_, fun i hi => ?_, fun i j hi hs => ?_⟩
    · have hb : b.value i = some b[i] := value_eq_some_iff.mpr ⟨rfl, hi⟩
      exact (value_eq_some_iff.mp (hkeeps i (List.mem_finRange i) _ hb)).1
    · have hbase := (hfilled i (List.mem_finRange i) (value_eq_none_iff.mpr hi) _ (hfull i)).1
      have hrange := List.mem_range'_1.mp hbase
      omega
    · have hfits := (hfilled i (List.mem_finRange i) (value_eq_none_iff.mpr hi) _ (hfull i)).2.2
      exact hfits j (List.mem_finRange j) hs.1.symm _ (hfull j) hs
  · intro h
    refine ⟨fun i _ => isSome_value_iff.mpr (h.ne_zero i), fun i _ x hx => ?_, fun i _ hi x hx => ?_⟩
    · obtain ⟨rfl, hne⟩ := value_eq_some_iff.mp hx
      exact value_eq_some_iff.mpr ⟨h.keeps i hne, hne⟩
    · obtain ⟨rfl, -⟩ := value_eq_some_iff.mp hx
      have hblank := value_eq_none_iff.mp hi
      have hdigit := h.digit i hblank
      refine ⟨List.mem_range'_1.mpr ⟨hdigit.1, by omega⟩, rfl, ?_⟩
      rintro j - - y hy hs
      obtain ⟨rfl, -⟩ := value_eq_some_iff.mp hy
      exact h.differs i j hblank hs

/-- A filling is solved iff no two givens that see each other are equal. -/
theorem Fills.isSolved_iff {b f : Board} (hb : b.Digits) (h : b.Fills f) : f.isSolved = true ↔ b.Consistent := by
  rw [Board.isSolved_iff]
  constructor
  · rintro ⟨-, hdiff⟩ i j hs hi heq
    have hj : b[j] ≠ 0 := heq ▸ hi
    exact hdiff i j hs (by rw [h.keeps i hi, h.keeps j hj, heq])
  · intro hc
    refine ⟨fun i => ?_, fun i j hs => ?_⟩
    · by_cases hi : b[i] = 0
      · exact h.digit i hi
      · rw [h.keeps i hi]
        have := hb i
        omega
    · by_cases hi : b[i] = 0
      · exact h.differs i j hi hs
      · by_cases hj : b[j] = 0
        · exact (h.differs j i hj hs.symm).symm
        · rw [h.keeps i hi, h.keeps j hj]
          exact hc i j hs hi

end Board

end TreeSearch.Sudoku
