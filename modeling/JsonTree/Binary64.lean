/-!
# Binary floating point numbers of 64 bits

A number is its 64 bits: a sign and, below it, a magnitude.  Magnitudes are ordered as the numbers
they stand for: zero, the subnormal and normal numbers, infinity, and behind it the magnitudes
that stand for no number.  A finite magnitude is a whole number of units of `2 ^ -1074` (`units`).
-/

namespace JsonTree

/-- A binary floating point number of 64 bits. -/
structure Binary64 where
  /-- Sign, exponent and fraction, most significant first. -/
  bits : UInt64
  deriving DecidableEq

namespace Binary64

/-- The magnitude of infinity. -/
def infinite : Nat := 0x7FF0000000000000

/-- The number with the given sign and magnitude. -/
def ofMagnitude (negative : Bool) (magnitude : Nat) : Binary64 :=
  ⟨(if negative then 0x8000000000000000 + magnitude else magnitude).toUInt64⟩

/-- The sign is set; zero and what is no number have a sign too. -/
def negative (x : Binary64) : Bool :=
  0x8000000000000000 ≤ x.bits.toNat

/-- The bits without the sign. -/
def magnitude (x : Binary64) : Nat :=
  x.bits.toNat % 0x8000000000000000

/-- Stands for no number. -/
def isNaN (x : Binary64) : Bool :=
  infinite < x.magnitude

/-- Is a number and not an infinity. -/
def isFinite (x : Binary64) : Bool :=
  x.magnitude < infinite

/-- Zero of positive sign. -/
def zero : Binary64 := ⟨0⟩

/-- Positive infinity. -/
def infinity : Binary64 := ofMagnitude false infinite

/-- Negative infinity. -/
def negativeInfinity : Binary64 := ofMagnitude true infinite

/-- The quiet not-a-number of positive sign. -/
def nan : Binary64 := ⟨0x7FF8000000000000⟩

/-- Equality of numbers: the two zeros are equal, and what is no number equals nothing. -/
def sameNumber (x y : Binary64) : Bool :=
  !x.isNaN && !y.isNaN && (x == y || (x.magnitude == 0 && y.magnitude == 0))

/-- How many units of `2 ^ -1074` a finite magnitude stands for. -/
def units (magnitude : Nat) : Nat :=
  if magnitude < Nat.pow 2 52 then magnitude
  else (Nat.pow 2 52 + magnitude % Nat.pow 2 52) * Nat.pow 2 (magnitude / Nat.pow 2 52 - 1)

end Binary64

end JsonTree
