import TreeSearch.Decimal.Binary
import TreeSearch.Decimal.Positional

/-!
# A fixed number of places

`fixed p x` rounds the exact binary value of `x` to `p` decimal places, a half going to the even neighbour: `0.0625`
has the text `0.062` in three places.
-/

namespace TreeSearch.Decimal

/-- The whole number nearest to `num / den`; a half goes to the even neighbour. -/
def roundQuotient (num den : Nat) : Nat :=
  let q := num / den
  let twice := 2 * (num % den)
  if twice < den then q
  else if den < twice then q + 1
  else if q % 2 = 0 then q else q + 1

/-- The text of `x` with `places` digits after the point. -/
def fixed (places : Nat) (x : Float) : String :=
  match Binary.ofFloat? x with
  | none => nonFinite x
  | some b =>
    signed b.negative (positional (roundQuotient (b.numerator * tenTo places) b.denominator) places)

/-- Rounding stays within half a unit: `|num - den * q| ≤ den / 2`. -/
theorem roundQuotient_near (num : Nat) {den : Nat} (h : 0 < den) :
    2 * num ≤ 2 * den * roundQuotient num den + den ∧ 2 * den * roundQuotient num den ≤ 2 * num + den := by
  have hd := Nat.div_add_mod num den
  have hm := Nat.mod_lt num h
  unfold roundQuotient
  simp only
  generalize num % den = r at *
  generalize num / den = q at *
  rw [← hd]
  split
  · constructor <;> grind
  · split
    · constructor <;> grind
    · split <;> constructor <;> grind

/-- A half goes to the even neighbour. -/
theorem roundQuotient_tie {num den : Nat} (h : 2 * (num % den) = den) : roundQuotient num den % 2 = 0 := by
  unfold roundQuotient
  simp only
  split
  · omega
  · split
    · omega
    · split <;> omega

end TreeSearch.Decimal
