/-!
# Blank characters

`isBlank` is the Unicode property `White_Space`, and `trim` removes blank characters at both ends of a text.

* (nothing else is lost) `trim_eq`: a text is its trimmed form between two runs of blanks.
* (nothing less is lost) `trim_append`: characters that are not blank, put between two runs of blanks, are what is left.
-/

namespace TreeSearch.Text

/-- The ranges of code points with the property `White_Space`, ends included. -/
def blankRanges : List (Nat × Nat) :=
  [(0x09, 0x0D), (0x20, 0x20), (0x85, 0x85), (0xA0, 0xA0), (0x1680, 0x1680), (0x2000, 0x200A), (0x2028, 0x2029),
   (0x202F, 0x202F), (0x205F, 0x205F), (0x3000, 0x3000)]

def isBlank (c : Char) : Bool := blankRanges.any fun r => r.1 ≤ c.toNat && c.toNat ≤ r.2

def trim (cs : List Char) : List Char := ((cs.dropWhile isBlank).reverse.dropWhile isBlank).reverse

theorem trim_eq (cs : List Char) :
    ∃ left right, cs = left ++ trim cs ++ right ∧ left.all isBlank ∧ right.all isBlank := by
  refine ⟨cs.takeWhile isBlank, ((cs.dropWhile isBlank).reverse.takeWhile isBlank).reverse, ?_, ?_, ?_⟩
  · rw [List.append_assoc, trim, ← List.reverse_append, List.takeWhile_append_dropWhile, List.reverse_reverse,
      List.takeWhile_append_dropWhile]
  · exact List.all_takeWhile
  · rw [List.all_reverse]; exact List.all_takeWhile

private theorem dropWhile_append {left cs : List Char} (hleft : ∀ c ∈ left, isBlank c = true)
    (hhead : ∀ c, cs.head? = some c → isBlank c = false) : (left ++ cs).dropWhile isBlank = cs := by
  rw [List.dropWhile_append_of_pos hleft]
  cases cs with
  | nil => rfl
  | cons c cs => rw [List.dropWhile_cons_of_neg (by rw [hhead c rfl]; decide)]

theorem trim_append {left cs right : List Char} (hleft : left.all isBlank) (hright : right.all isBlank)
    (hcs : ∀ c ∈ cs, isBlank c = false) : trim (left ++ cs ++ right) = cs := by
  rw [List.all_eq_true] at hleft hright
  cases cs with
  | nil =>
    have hall : ∀ c ∈ left ++ right, isBlank c = true := List.forall_mem_append.mpr ⟨hleft, hright⟩
    have hnil : (left ++ right ++ []).dropWhile isBlank = [] := List.dropWhile_append_of_pos hall
    rw [List.append_nil] at hnil
    rw [List.append_nil, trim, hnil]
    rfl
  | cons c cs =>
    have hhead : ∀ d, (c :: cs ++ right).head? = some d → isBlank d = false := by
      intro d hd
      obtain rfl : c = d := Option.some.inj hd
      exact hcs c (List.mem_cons_self ..)
    have hlast : ∀ d, (c :: cs).reverse.head? = some d → isBlank d = false :=
      fun d hd => hcs d (List.mem_reverse.mp (List.mem_of_mem_head? hd))
    rw [trim, List.append_assoc, dropWhile_append hleft hhead, List.reverse_append,
      dropWhile_append (fun d hd => hright d (List.mem_reverse.mp hd)) hlast, List.reverse_reverse]

end TreeSearch.Text
