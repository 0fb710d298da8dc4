import JsonTree.Bytes
import JsonTree.Binary64.Rounding

/-!
# Numerals

A numeral is the text of a number: a sign, whole digits without a leading zero, a fraction and a
power of ten.  `scan` reads the longest numeral at the front of a byte sequence; it refuses, rather
than stops early, where a digit follows a leading zero and where a point, a mark or its sign is not
followed by a digit.  `text` writes a numeral back.  The meaning of a numeral without fraction and
power of ten is an integer, found in 64 bits with a test before each step that would not fit; any
numeral has a meaning as the nearest binary number.
-/

namespace JsonTree

/-- The power of ten of a numeral, as it is written. -/
structure Exponent where
  /-- The letter in front. -/
  mark : UInt8
  /-- The sign, when there is one. -/
  sign : Option UInt8
  /-- The digits. -/
  digits : Bytes
  deriving DecidableEq

/-- A number as it is written. -/
structure Numeral where
  /-- Has a minus sign. -/
  negative : Bool
  /-- The digits before the point. -/
  whole : Bytes
  /-- The digits behind the point, when there is one. -/
  fraction : Option Bytes
  /-- The power of ten, when there is one. -/
  exponent : Option Exponent
  deriving DecidableEq

namespace Exponent

/-- The exponent as written. -/
def text (e : Exponent) : Bytes :=
  e.mark :: (e.sign.toList ++ e.digits)

/-- The power of ten that is meant. -/
def value (e : Exponent) : Int :=
  if e.sign = some Ascii.minus then -(Ascii.natOfDigits e.digits : Int)
  else Ascii.natOfDigits e.digits

end Exponent

namespace Numeral

open Ascii

/-- The numeral as written. -/
def text (n : Numeral) : Bytes :=
  (if n.negative then [minus] else []) ++ n.whole ++
    (match n.fraction with
      | none => []
      | some digits => point :: digits) ++
    (match n.exponent with
      | none => []
      | some e => e.text)

/-! ### Reading a numeral -/

/-- Can stand in a numeral. -/
def isPart (b : UInt8) : Bool :=
  isDigit b || b == minus || b == plus || b == point || b == 'e'.toUInt8 || b == 'E'.toUInt8

/-- At least one digit, as many as there are. -/
def scanDigits (bs : Bytes) : Option (Bytes × Bytes) :=
  match bs.takeWhile isDigit with
  | [] => none
  | digits => some (digits, bs.dropWhile isDigit)

/-- Digits before the point: a lone zero, or digits that begin with none. -/
def scanWhole (bs : Bytes) : Option (Bytes × Bytes) :=
  match scanDigits bs with
  | none => none
  | some (digits, rest) =>
    if digits.head? = some zero ∧ digits.length ≠ 1 then none else some (digits, rest)

/-- A point and digits, if there is a point. -/
def scanFraction (bs : Bytes) : Option (Option Bytes × Bytes) :=
  match bs with
  | [] => some (none, [])
  | b :: rest =>
    if b == point then (scanDigits rest).map fun (digits, rest) => (some digits, rest)
    else some (none, bs)

/-- A sign, if there is one. -/
def scanSign (bs : Bytes) : Option UInt8 × Bytes :=
  match bs with
  | [] => (none, [])
  | b :: rest => if b == plus || b == minus then (some b, rest) else (none, bs)

/-- A mark, a sign and digits, if there is a mark. -/
def scanExponent (bs : Bytes) : Option (Option Exponent × Bytes) :=
  match bs with
  | [] => some (none, [])
  | b :: rest =>
    if b == 'e'.toUInt8 || b == 'E'.toUInt8 then
      let (sign, rest) := scanSign rest
      (scanDigits rest).map fun (digits, rest) => (some ⟨b, sign, digits⟩, rest)
    else some (none, bs)

/-- A minus sign, if there is one. -/
def scanMinus (bs : Bytes) : Bool × Bytes :=
  match bs with
  | [] => (false, [])
  | b :: rest => if b == minus then (true, rest) else (false, bs)

/-- The numeral at the front, and what follows it. -/
def scan (bs : Bytes) : Option (Numeral × Bytes) := do
  let (negative, bs) := scanMinus bs
  let (whole, bs) ← scanWhole bs
  let (fraction, bs) ← scanFraction bs
  let (exponent, bs) ← scanExponent bs
  return (⟨negative, whole, fraction, exponent⟩, bs)

/-! ### What a numeral means -/

/-- Has neither fraction nor power of ten. -/
def isInteger (n : Numeral) : Bool :=
  n.fraction.isNone && n.exponent.isNone

/-- Appends decimal digits to a number of 64 bits, stopping before a step that would not fit. -/
def accumulate : Bytes → UInt64 → Option UInt64
  | [], total => some total
  | b :: bs, total =>
    let d := (digitValue b).toUInt64
    if (0xFFFFFFFFFFFFFFFF - d) / 10 < total then none else accumulate bs (total * 10 + d)

/-- The integer the digits and the sign stand for, when it fits in 64 bits with a sign. -/
def toInt64? (n : Numeral) : Option Int64 :=
  match accumulate n.whole 0 with
  | none => none
  | some total =>
    if n.negative then
      if 0x8000000000000000 < total then none
      else if total = 0x8000000000000000 then some Int64.minValue
      else some (-total.toInt64)
    else
      if 0x7FFFFFFFFFFFFFFF < total then none else some total.toInt64

/-- All digits as one number, the point left out. -/
def digits (n : Numeral) : Nat :=
  Ascii.natOfDigits (n.whole ++ n.fraction.getD [])

/-- The power of ten by which `digits` is to be multiplied. -/
def scale (n : Numeral) : Int :=
  (n.exponent.map Exponent.value).getD 0 - ((n.fraction.getD []).length : Int)

/-- The nearest binary number. -/
def toBinary64 (n : Numeral) : Binary64 :=
  Binary64.ofDecimal n.negative n.digits n.scale

end Numeral

end JsonTree
