/-!
# Positional layout of a decimal

`positional c p` writes `c / 10 ^ p` with `p` digits after the point and no exponent, whatever the size; without
digits after the point there is no point either.
-/

namespace TreeSearch.Decimal

/-- The power `10 ^ k`. -/
def tenTo (k : Nat) : Nat := Nat.pow 10 k

/-- The decimal digits of `n`, filled with zeros on the left to `width`. -/
def digitsPadded (width n : Nat) : List Char := (Nat.toDigits 10 n).leftpad width '0'

/-- The digits of `c / 10 ^ p`, with a point before the last `p`. -/
def positional (c p : Nat) : List Char :=
  let digits := digitsPadded (p + 1) c
  let whole := digits.take (digits.length - p)
  if p = 0 then whole else whole ++ '.' :: digits.drop (digits.length - p)

/-- The layout with a minus sign in front of it if `negative`. -/
def signed (negative : Bool) (text : List Char) : String :=
  String.ofList (if negative then '-' :: text else text)

end TreeSearch.Decimal
