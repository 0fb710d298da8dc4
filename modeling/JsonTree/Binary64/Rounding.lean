import JsonTree.Binary64

/-!
# Rounding to the nearest binary number

A positive fraction is rounded to the nearest magnitude, a tie going to the even one.  In units of
`2 ^ -1074` the fraction has a whole part; what exceeds 53 binary places of it is rounded away, and
since magnitudes count the numbers in order, the number of places dropped and the quotient kept add
up to the magnitude: a quotient that rounds up to the next power of two moves to the next exponent
by itself.
-/

namespace JsonTree

namespace Binary64

/-- The quotient rounded to the nearest whole number, a half going to the even neighbour. -/
def roundDiv (num den : Nat) : Nat :=
  let quotient := num / den
  let twice := 2 * (num % den)
  if twice < den then quotient
  else if den < twice then quotient + 1
  else quotient + quotient % 2

/-- The magnitude nearest to `num / den`; infinite when the fraction is too large. -/
def roundRatio (num den : Nat) : Nat :=
  let scaled := num * Nat.pow 2 1074
  let dropped := (scaled / den).log2 - 52
  min infinite (dropped * Nat.pow 2 52 + roundDiv scaled (den * Nat.pow 2 dropped))

/-- The number nearest to `digits * 10 ^ exponent`, with the given sign.  Far above the largest
number and far below the smallest the power of ten need not be formed. -/
def ofDecimal (negative : Bool) (digits : Nat) (exponent : Int) : Binary64 :=
  ofMagnitude negative <|
    if digits = 0 then 0
    else if 310 < exponent then infinite
    else if exponent + digits.log2 + 1 < -330 then 0
    else roundRatio (digits * Nat.pow 10 exponent.toNat) (Nat.pow 10 (-exponent).toNat)

/-- The number nearest to an integer. -/
def ofInt (n : Int) : Binary64 :=
  ofMagnitude (n < 0) (roundRatio n.natAbs 1)

end Binary64

end JsonTree
