import TreeSearch.Random.Generator

/-!
# Choosing from a list at random

A word `w` names the index `w * n / wordCount` below `n`, the high half of the product, and is refused if the low
half lies above the zone, so that each index is named by equally many words.  At least every second word is
accepted.

* `drawIndex_lt`: the index drawn is below `n`.
* `pick_isSome`: something is chosen from every list that is not empty.
-/

namespace TreeSearch.Random

/-- The number of words. -/
def wordCount : Nat := 4294967296

/-- The greatest low half accepted: `n`, shifted until its highest bit is the highest of a word, less one. -/
def zone (n : Nat) : Nat := (n <<< (31 - n.log2)) - 1

/-- Draws words until one is accepted; after `tries` refusals the next word is taken as it is. -/
def drawIndex (n : Nat) : Nat → Generator → Nat × Generator
  | 0, g => (g.next.1.toNat * n / wordCount, g.next.2)
  | tries + 1, g =>
    let (w, g) := g.next
    if w.toNat * n % wordCount ≤ zone n then (w.toNat * n / wordCount, g) else drawIndex n tries g

/-- The number of refusals after which a word is taken as it is, far beyond any run. -/
def patience : Nat := 1000

/-- An entry of the list, drawn at random; nothing is drawn for an empty list. -/
def Generator.pick {α : Type} (g : Generator) (xs : List α) : Option α × Generator :=
  if xs.isEmpty then (none, g)
  else
    let (i, g) := drawIndex xs.length patience g
    (xs[i]?, g)

private theorem scaled_lt (w : UInt32) {n : Nat} (h : 0 < n) : w.toNat * n / wordCount < n := by
  rw [Nat.div_lt_iff_lt_mul (by decide), Nat.mul_comm n]
  exact Nat.mul_lt_mul_of_pos_right w.toNat_lt h

theorem drawIndex_lt {n : Nat} (h : 0 < n) (tries : Nat) (g : Generator) : (drawIndex n tries g).1 < n := by
  induction tries generalizing g with
  | zero => exact scaled_lt _ h
  | succ tries ih =>
    simp only [drawIndex]
    split
    · exact scaled_lt _ h
    · exact ih _

theorem Generator.pick_isSome {α : Type} (g : Generator) {xs : List α} (h : xs ≠ []) :
    ∃ x ∈ xs, (g.pick xs).1 = some x := by
  have hlt := drawIndex_lt (List.length_pos_iff.mpr h) patience g
  refine ⟨xs[(drawIndex xs.length patience g).1], List.getElem_mem _, ?_⟩
  simp [pick, h, hlt]

end TreeSearch.Random
