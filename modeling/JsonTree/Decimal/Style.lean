import JsonTree.Decimal.Shortest

/-!
# Writing a decimal

A decimal is written in positional notation while the exponent of its first digit lies in a given
range, and with a power of ten otherwise.  A text with neither a point nor a power of ten would read
as a whole number (`isFloating`).
-/

namespace JsonTree

/-- How decimals are laid out. -/
structure Decimal.Style where
  /-- The least exponent of the first digit that is written in positional notation. -/
  leastPositional : Int
  /-- The first exponent above those. -/
  firstScientific : Int
  /-- The least number of digits of a written power of ten. -/
  exponentDigits : Nat

namespace Decimal.Style

/-- The mark before a power of ten. -/
def exponentMark : UInt8 := 'e'.toUInt8

/-- Puts zeros in front up to the given length. -/
def pad (width : Nat) (bs : Bytes) : Bytes :=
  List.replicate (width - bs.length) Ascii.zero ++ bs

/-- Digits with the point in its place, and with the zeros that this takes. -/
def positional (digits : Bytes) (exponent : Int) : Bytes :=
  if 0 ≤ exponent then
    digits ++ List.replicate exponent.toNat Ascii.zero
  else
    let places := (-exponent).toNat
    let padded := pad (places + 1) digits
    padded.take (padded.length - places) ++ Ascii.point :: padded.drop (padded.length - places)

/-- One digit, the others behind a point, and the power of ten with its sign. -/
def scientific (style : Style) (digits : Bytes) (first : Int) : Bytes :=
  let tail := if digits.length ≤ 1 then [] else Ascii.point :: digits.drop 1
  let sign := if first < 0 then Ascii.minus else Ascii.plus
  digits.take 1 ++ tail ++
    exponentMark :: sign :: pad style.exponentDigits (Bytes.decimal first.natAbs)

/-- The text has a point or a power of ten. -/
def isFloating (text : Bytes) : Bool :=
  text.any fun b => b == Ascii.point || b == 'e'.toUInt8 || b == 'E'.toUInt8

/-- Writes a decimal without a sign. -/
def decimal (style : Style) (d : Decimal) : Bytes :=
  let digits := Bytes.decimal d.digits
  let first := d.exponent + digits.length - 1
  if style.leastPositional ≤ first ∧ first < style.firstScientific then positional digits d.exponent
  else style.scientific digits first

/-- Writes the shortest decimal of a finite number. -/
def shortest (style : Style) (x : Binary64) : Bytes :=
  let text := style.decimal (Decimal.shortest x.magnitude)
  if x.negative then Ascii.minus :: text else text

end Decimal.Style

end JsonTree
