import Mathlib.Data.List.Forall2
import TreeSearch.Proofs.Sudoku.Houses

/-!
# Boards read back from their texts

* `Board.Denotes c x`: the character `c` is one that a number may be written as; `Board.Spells cs b`: the characters are
  written for the cells of `b`, row by row.
* (reading) `ofText_eq_ok_iff`: a text is read as `b` iff its trimmed characters stand for the numbers of `b`.
* (spelling) `Spells.ofText_eq`: so is every spelling of `b`, whatever blanks are around it.
* (printing) `filter_text`: without its bars, rules and blanks the printed text has one character for each cell.
* `forms_read_back`: every spelling of a board and what is left of its printed text are read as that board.
-/

namespace TreeSearch.Sudoku.Board

/-! ### Reading -/

/-- A text is read as `b` iff its characters, less the blanks around them, stand for the numbers of `b`. -/
theorem ofText_eq_ok_iff {text : String} {b : Board} :
    ofText text = .ok b ↔ (Text.trim text.toList).map cellOfChar = b.cells.toList := by
  obtain ⟨cells⟩ := b
  unfold ofText
  simp only
  split
  · rw [Except.ok.injEq, Board.mk.injEq, ← Vector.toList_inj]
    rfl
  · rename_i h
    constructor
    · intro hok
      cases hok
    · intro heq
      have hlength := congrArg List.length heq
      rw [List.length_map, Vector.length_toList] at hlength
      exact absurd hlength h

/-- The character is one that the number may be written as: its digit, or for a blank cell any character that is neither
blank nor a digit from one to nine. -/
def Denotes (c : Char) (x : Nat) : Prop :=
  if x = 0 then Text.isBlank c = false ∧ ¬('1' ≤ c ∧ c ≤ '9') else c = Nat.digitChar x

instance (c : Char) (x : Nat) : Decidable (Denotes c x) := inferInstanceAs (Decidable (ite ..))

private theorem cellOfChar_digitChar : ∀ x ≤ 9, cellOfChar (Nat.digitChar x) = x := by decide

private theorem isBlank_digitChar : ∀ x ≤ 9, Text.isBlank (Nat.digitChar x) = false := by decide

theorem denotes_digitChar : ∀ x ≤ 9, Denotes (Nat.digitChar x) x := by decide

private theorem Denotes.cellOfChar_eq {c : Char} {x : Nat} (h : Denotes c x) (hx : x ≤ 9) : cellOfChar c = x := by
  unfold Denotes at h
  split at h
  · rename_i hzero
    rw [hzero, cellOfChar, if_neg h.2]
  · rw [h, cellOfChar_digitChar x hx]

private theorem Denotes.isBlank_eq {c : Char} {x : Nat} (h : Denotes c x) (hx : x ≤ 9) : Text.isBlank c = false := by
  unfold Denotes at h
  split at h
  · exact h.1
  · rw [h, isBlank_digitChar x hx]

/-- Characters written for digits and blanks are read as those, and none of them is lost at the ends. -/
private theorem read_of_denotes {cs : List Char} {xs : List Nat} (h : List.Forall₂ Denotes cs xs)
    (hxs : ∀ x ∈ xs, x ≤ 9) : cs.map cellOfChar = xs ∧ ∀ c ∈ cs, Text.isBlank c = false := by
  induction h with
  | nil => exact ⟨rfl, List.forall_mem_nil _⟩
  | cons hc _ ih =>
    obtain ⟨hx, hxs⟩ := List.forall_mem_cons.mp hxs
    obtain ⟨hmap, hblank⟩ := ih hxs
    rw [List.map_cons, hmap, hc.cellOfChar_eq hx]
    exact ⟨rfl, List.forall_mem_cons.mpr ⟨hc.isBlank_eq hx, hblank⟩⟩

/-- The characters are written for the cells of the board, row by row. -/
def Spells (cs : List Char) (b : Board) : Prop := List.Forall₂ Denotes cs b.cells.toList

instance (cs : List Char) (b : Board) : Decidable (Spells cs b) :=
  inferInstanceAs (Decidable (List.Forall₂ Denotes cs b.cells.toList))

private theorem Digits.le_of_mem {b : Board} (h : b.Digits) {x : Nat} (hx : x ∈ b.cells.toList) : x ≤ 9 := by
  obtain ⟨i, hi, rfl⟩ := List.mem_iff_getElem.mp hx
  rw [Vector.length_toList] at hi
  exact h ⟨i, hi⟩

/-- Writing each number as a character that it may be written as spells the board. -/
private theorem Digits.spells_map {b : Board} (h : b.Digits) {f : Nat → Char} (hf : ∀ x ≤ 9, Denotes (f x) x) :
    Spells (b.cells.toList.map f) b := by
  rw [Spells, List.forall₂_map_left_iff, List.forall₂_same]
  exact fun x hx => hf x (h.le_of_mem hx)

/-- A spelling of a board of digits and blanks is read as that board, whatever blanks are around it. -/
theorem Spells.ofText_eq {cs : List Char} {b : Board} (h : Spells cs b) (hb : b.Digits) {left right : List Char}
    (hleft : left.all Text.isBlank) (hright : right.all Text.isBlank) :
    ofText (String.ofList (left ++ cs ++ right)) = .ok b := by
  obtain ⟨hmap, hblank⟩ := read_of_denotes h fun _ => hb.le_of_mem
  rw [ofText_eq_ok_iff, String.toList_ofList, Text.trim_append hleft hright hblank, hmap]

/-- So are the characters alone. -/
theorem Digits.ofText_map {b : Board} (h : b.Digits) {f : Nat → Char} (hf : ∀ x ≤ 9, Denotes (f x) x) :
    ofText (String.ofList (b.cells.toList.map f)) = .ok b := by
  have hread : ofText (String.ofList ([] ++ b.cells.toList.map f ++ [])) = .ok b :=
    (h.spells_map hf).ofText_eq h rfl rfl
  rwa [List.nil_append, List.append_nil] at hread

/-! ### Printing -/

/-- What is left of a printed text: points and the digits from one to nine. -/
def isSign (c : Char) : Bool := c = '.' || '1' ≤ c && c ≤ '9'

/-- The character printed for a number. -/
def sign (x : Nat) : Char := if x = 0 then '.' else Nat.digitChar x

private theorem denotes_sign : ∀ x ≤ 9, Denotes (sign x) x := by decide

private theorem filter_symbol : ∀ x ≤ 9, (symbol x).filter isSign = [sign x] := by decide

/-- The cells row by row. -/
private theorem toList_cells (b : Board) :
    b.cells.toList = (List.finRange 9).flatMap fun r => (List.finRange 9).map fun c => b[cellAt r c] := by
  have hcells : List.finRange 81 = (List.finRange 9).flatMap fun r => (List.finRange 9).map fun c => cellAt r c := by
    decide
  calc b.cells.toList = (List.finRange 81).map fun i => b[i] := by
        refine List.ext_getElem (by simp) fun n hn hn' => ?_
        rw [List.getElem_map, List.getElem_finRange]
        rfl
    _ = _ := by rw [hcells, List.map_flatMap]; simp only [List.map_map, Function.comp_def]

/-- Of a printed row its nine signs are left. -/
private theorem filter_rowText {b : Board} (h : b.Digits) (r : Fin 9) :
    (b.rowText r).filter isSign = (List.finRange 9).map fun c => sign b[cellAt r c] := by
  have hcell : ∀ c : Fin 9,
      ((if c = 3 ∨ c = 6 then ['|', ' '] else []) ++ symbol b[cellAt r c] ++ [' ']).filter isSign =
        [sign b[cellAt r c]] := by
    intro c
    have hbar : (if c = 3 ∨ c = 6 then ['|', ' '] else []).filter isSign = [] := by
      split <;> decide
    rw [List.filter_append, List.filter_append, hbar, filter_symbol _ (h _)]
    rfl
  rw [rowText, List.filter_append, List.filter_flatMap]
  simp only [hcell, ← List.map_eq_flatMap]
  exact List.append_nil _

/-- Of a printed text one sign is left for each cell. -/
theorem filter_text {b : Board} (h : b.Digits) : b.text.toList.filter isSign = b.cells.toList.map sign := by
  have hrow : ∀ r : Fin 9, ((if r = 3 ∨ r = 6 then ruleText else []) ++ b.rowText r).filter isSign =
      (List.finRange 9).map fun c => sign b[cellAt r c] := by
    intro r
    have hrule : (if r = 3 ∨ r = 6 then ruleText else []).filter isSign = [] := by
      split <;> decide
    rw [List.filter_append, hrule, filter_rowText h]
    rfl
  rw [text, String.toList_ofList, List.filter_flatMap, toList_cells, List.map_flatMap]
  simp only [hrow, List.map_map, Function.comp_def]

/-- What is left of the printed text is read as the board. -/
private theorem Digits.ofText_filter_text {b : Board} (h : b.Digits) :
    ofText (String.ofList (b.text.toList.filter isSign)) = .ok b := by
  rw [filter_text h]
  exact h.ofText_map denotes_sign

/-- Two boards of digits and blanks are not printed alike. -/
theorem Digits.text_inj {b b' : Board} (h : b.Digits) (h' : b'.Digits) (heq : b.text = b'.text) : b = b' := by
  have hread := h.ofText_filter_text
  rw [heq, h'.ofText_filter_text] at hread
  exact (Except.ok.inj hread).symm

/-- A board of digits and blanks is read back from each of its spellings, with any blanks around it, and from the signs
in its printed text, which are eighty-one; so no two boards are printed alike.  And a text that is read as a board has
eighty-one characters between the blanks around them, and the board is read back when it is written in digits. -/
theorem forms_read_back :
    (∀ b : Board, b.Digits →
      (∀ left cs right, left.all Text.isBlank → right.all Text.isBlank → Spells cs b →
        ofText (String.ofList (left ++ cs ++ right)) = .ok b) ∧
      (b.text.toList.filter isSign).length = 81 ∧ ofText (String.ofList (b.text.toList.filter isSign)) = .ok b ∧
      ∀ b' : Board, b'.Digits → b.text = b'.text → b = b') ∧
    ∀ text b, ofText text = .ok b → (Text.trim text.toList).length = 81 ∧
      ofText (String.ofList (b.cells.toList.map Nat.digitChar)) = .ok b := by
  refine ⟨fun b hb => ⟨?_, ?_, hb.ofText_filter_text, fun b' hb' => hb.text_inj hb'⟩, fun text b h => ⟨?_, ?_⟩⟩
  · intro left cs right hleft hright hcs
    exact hcs.ofText_eq hb hleft hright
  · rw [filter_text hb, List.length_map, Vector.length_toList]
  · have hlength := congrArg List.length (ofText_eq_ok_iff.mp h)
    rwa [List.length_map, Vector.length_toList] at hlength
  · exact (digits_ofText h).ofText_map denotes_digitChar

/-- A solved board: each row goes through the digits in turn. -/
def turning : Board := ⟨Vector.ofFn fun i => (i / 9 % 3 * 3 + i / 27 + i % 9) % 9 + 1⟩

/-- The turning board less its first two cells. -/
def beheaded : Board := ⟨Vector.ofFn fun i => if i.val < 2 then 0 else turning[i]⟩

theorem beheaded_eq : beheaded = (turning.erase 0).erase 1 := by decide +kernel

/-- Blanks of several kinds around the characters, and two blank cells written in different ways, one of them as a digit
of another script. -/
theorem forms_read_back_beheaded :
    let cs := 'x' :: '٣' :: (turning.cells.toList.drop 2).map Nat.digitChar
    let text := String.ofList (['\u3000', '\t'] ++ cs ++ ['\n'])
    beheaded.Digits ∧ Spells cs beheaded ∧ ofText text = .ok beheaded ∧
      ofText (String.ofList (beheaded.text.toList.filter isSign)) = .ok beheaded ∧
      beheaded.text ≠ turning.text ∧ (Text.trim text.toList).length = 81 ∧
      ofText (String.ofList (beheaded.cells.toList.map Nat.digitChar)) = .ok beheaded := by
  intro cs text
  have hdigits : turning.Digits := by decide +kernel
  have hdigits' : beheaded.Digits := by
    rw [beheaded_eq]
    exact (hdigits.erase 0).erase 1
  have hspells : Spells cs beheaded := by decide +kernel
  have hne : beheaded ≠ turning := by decide +kernel
  obtain ⟨hspelt, -, hsigns, hinj⟩ := forms_read_back.1 beheaded hdigits'
  have hread : ofText text = .ok beheaded := hspelt _ _ _ rfl rfl hspells
  obtain ⟨hlength, hwritten⟩ := forms_read_back.2 text beheaded hread
  exact ⟨hdigits', hspells, hread, hsigns, fun h => hne (hinj _ hdigits h), hlength, hwritten⟩

end TreeSearch.Sudoku.Board
