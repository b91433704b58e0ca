/-!
# The binary value of a float

A finite float is `± mantissa * 2 ^ exponent`, read off its bits: eleven bits of exponent and fifty-two of fraction.

* `ofFloat?` gives this reading and refuses the infinities and the values that are no number.
* `narrowBelow` marks the powers of two whose lower neighbour lies at half the usual distance.
* `numerator` and `denominator` write the absolute value as a fraction of two natural numbers.
-/

namespace TreeSearch.Decimal

/-- A finite float, as a sign, a whole number and a power of two. -/
structure Binary where
  negative : Bool
  mantissa : Nat
  exponent : Int
  narrowBelow : Bool
  deriving DecidableEq, Repr

namespace Binary

/-- A stored exponent of zero stands for the same power of two as one, without the leading bit. -/
def ofFields (negative : Bool) (stored fraction : Nat) : Binary :=
  if stored = 0 then ⟨negative, fraction, -1074, false⟩
  else ⟨negative, (1 <<< 52) + fraction, (stored : Int) - 1075, fraction = 0 && 1 < stored⟩

/-- The reading of a float, unless it is infinite or no number. -/
def ofFloat? (x : Float) : Option Binary :=
  let bits := x.toBits
  let stored := ((bits >>> 52) &&& 0x7FF).toNat
  if stored = 0x7FF then none
  else some (ofFields (bits >>> 63 = 1) stored (bits &&& 0xFFFFFFFFFFFFF).toNat)

/-- Numerator of the absolute value. -/
def numerator (b : Binary) : Nat := b.mantissa <<< b.exponent.toNat

/-- Denominator of the absolute value, a power of two. -/
def denominator (b : Binary) : Nat := 1 <<< (-b.exponent).toNat

end Binary

/-- The text of an infinity, or of a value that is no number. -/
def nonFinite (x : Float) : String :=
  if x.isNaN then "NaN" else if x < 0 then "-inf" else "inf"

end TreeSearch.Decimal
