import JsonTree.Bytes
import JsonTree.Binary64.Rounding

/-!
# The shortest decimal of a binary number

A decimal stands for a magnitude when it rounds to it.  For one digit, two digits and so on the two
neighbours of the magnitude on that decimal grid are tried, the nearer one first and of two equally
near ones the even one; the first that rounds back is taken.  The exact decimal stands behind them
all, so the result rounds back in any case.
-/

namespace JsonTree

/-- The number `digits * 10 ^ exponent`. -/
structure Decimal where
  /-- The significant digits as one number. -/
  digits : Nat
  /-- The power of ten of the last digit. -/
  exponent : Int
  deriving DecidableEq

namespace Decimal

/-- The magnitude the decimal rounds to. -/
def round (d : Decimal) : Nat :=
  (Binary64.ofDecimal false d.digits d.exponent).magnitude

/-- Takes trailing zeros off the digits, at most the given number. -/
def strip : (most : Nat) → Decimal → Decimal
  | 0, d => d
  | most + 1, d =>
    if d.digits % 10 = 0 then strip most ⟨d.digits / 10, d.exponent + 1⟩ else d

/-- The power of ten of the first digit of a positive magnitude. -/
def leading (magnitude : Nat) : Int :=
  (Bytes.decimal (Binary64.units magnitude * Nat.pow 10 324 / Nat.pow 2 1074)).length - 325

/-- The neighbours of a magnitude among the decimals with `count` digits, the nearer one first. -/
def neighbours (magnitude : Nat) (first : Int) (count : Nat) : List Decimal :=
  let exponent := first - count + 1
  let num := Binary64.units magnitude * Nat.pow 10 (-exponent).toNat
  let den := Nat.pow 2 1074 * Nat.pow 10 exponent.toNat
  let below : Decimal := ⟨num / den, exponent⟩
  let above : Decimal := ⟨num / den + 1, exponent⟩
  if Binary64.roundDiv num den = num / den then [below, above] else [above, below]

/-- The decimal that equals a magnitude. -/
def exact (magnitude : Nat) : Decimal :=
  ⟨Binary64.units magnitude * Nat.pow 5 1074, -1074⟩

/-- The decimal with the fewest digits that rounds to a magnitude, the nearest of those. -/
def shortest (magnitude : Nat) : Decimal :=
  if magnitude = 0 then ⟨0, 0⟩
  else
    let first := leading magnitude
    let grids := (List.range 17).flatMap fun k => neighbours magnitude first (k + 1)
    match grids.find? fun d => d.round = magnitude with
    | some d => strip 20 d
    | none => exact magnitude

end Decimal

end JsonTree
