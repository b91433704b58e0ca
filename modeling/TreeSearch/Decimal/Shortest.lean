import TreeSearch.Decimal.Binary
import TreeSearch.Decimal.Positional

/-!
# The fewest digits that read back

`shortest x` writes a finite float with the fewest significant digits whose value rounds to `x` again, positionally
and never with an exponent.

* `readsBack` tells whether a decimal rounds to the float: it lies within half the distance to each neighbour, the
  ends included iff the mantissa is even.
* `onGrid?` looks at the two neighbours of the value among the decimals of a given number of digits; the nearer one
  that reads back is taken, and the greater of two equally near ones.
* `shortestDigits` takes the first number of digits with a hit; seventeen always have one.
-/

namespace TreeSearch.Decimal

/-- The decimal `coefficient * 10 ^ exponent`. -/
structure Scaled where
  coefficient : Nat
  exponent : Int
  deriving DecidableEq, Repr

/-- Numerator of the decimal. -/
def Scaled.numerator (d : Scaled) : Nat := d.coefficient * tenTo d.exponent.toNat

/-- Denominator of the decimal, a power of ten. -/
def Scaled.denominator (d : Scaled) : Nat := tenTo (-d.exponent).toNat

/-- The text of the decimal; a negative exponent gives as many places. -/
def Scaled.text (d : Scaled) : List Char :=
  positional (d.coefficient * tenTo d.exponent.toNat) (-d.exponent).toNat

namespace Binary

/-- Whether `d` rounds to the absolute value of `b`. In quarters of the last bit, the value is `4 * mantissa`, the
upper end lies two quarters above it and the lower end two quarters below it, or one if the gap below is narrow. -/
def readsBack (b : Binary) (d : Scaled) : Bool :=
  let unit := d.denominator <<< b.exponent.toNat
  let middle := 4 * b.mantissa * unit
  let below := (if b.narrowBelow then 1 else 2) * unit
  let above := 2 * unit
  let point := 4 * d.numerator * b.denominator
  if b.mantissa % 2 = 0 then middle ≤ point + below && point ≤ middle + above
  else middle < point + below && point < middle + above

/-- The power of ten above the absolute value: `10 ^ (k - 1) ≤ value < 10 ^ k`. -/
def magnitude (b : Binary) : Int :=
  let whole := b.numerator / b.denominator
  if 0 < whole then (Nat.toDigits 10 whole).length
  else 1 - ((Nat.toDigits 10 ((b.denominator - 1) / b.numerator)).length : Int)

/-- The decimal with unit `10 ^ e` that stands for the value, if one of its two neighbours reads back. -/
def onGrid? (b : Binary) (e : Int) : Option Scaled :=
  let num := b.numerator * tenTo (-e).toNat
  let den := b.denominator * tenTo e.toNat
  let down : Scaled := ⟨num / den, e⟩
  let up : Scaled := ⟨num / den + 1, e⟩
  if b.readsBack down then
    if b.readsBack up && den ≤ 2 * (num % den) then some up else some down
  else if b.readsBack up then some up
  else none

/-- The absolute value written out in full. -/
def exact (b : Binary) : Scaled :=
  if 0 ≤ b.exponent then ⟨b.numerator, 0⟩ else ⟨b.mantissa * Nat.pow 5 (-b.exponent).toNat, b.exponent⟩

/-- The first decimal that reads back when `digits`, `digits + 1`, … digits are tried, `tries` counts in all. -/
def firstOnGrid (b : Binary) (digits : Nat) : Nat → Scaled
  | 0 => b.exact
  | tries + 1 => (b.onGrid? (b.magnitude - digits)).getD (b.firstOnGrid (digits + 1) tries)

/-- A next power of ten, reached by rounding up, is written with the one digit it needs. -/
def shortestDigits (b : Binary) : Scaled :=
  if b.mantissa = 0 then ⟨0, 0⟩
  else
    let d := b.firstOnGrid 1 17
    if d.coefficient = tenTo (b.magnitude - d.exponent).toNat then ⟨1, b.magnitude⟩ else d

end Binary

/-- The shortest text of a float. -/
def shortest (x : Float) : String :=
  match Binary.ofFloat? x with
  | none => nonFinite x
  | some b => signed b.negative b.shortestDigits.text

end TreeSearch.Decimal
