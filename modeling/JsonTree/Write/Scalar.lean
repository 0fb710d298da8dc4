import JsonTree.Decimal.Style
import JsonTree.Output
import JsonTree.Value
import JsonTree.Write.Escape

/-!
# Written scalars

Null, the truth values, numbers and strings.  A floating point number is written with the fewest
digits that read back as the same number, in positional notation from `0.0001` up to below a
million, and gets a fraction of zero when it would read as a whole number: what was just written is
looked at again for a point or a power of ten.  What is no finite number is an error unless it may
be written by its name.
-/

namespace JsonTree

/-- Why a value cannot be written. -/
inductive WriteError where
  /-- A number that is not finite, and that may not be written by name. -/
  | nonFinite
  deriving DecidableEq

/-- The wording of the cause. -/
def WriteError.message : WriteError → String
  | nonFinite => "cowjson: cannot dump NaN/Inf as JSON number"

namespace Write

/-- Numbers from `1e-04` to below `1e+06` are written in positional notation, and a power of ten
has at least two digits. -/
def numberStyle : Decimal.Style where
  leastPositional := -4
  firstScientific := 6
  exponentDigits := 2

/-- Adds a fraction of zero unless there is a point or a power of ten behind the mark. -/
def floatingSuffix (out : Output) (mark : Nat) : Output :=
  if Decimal.Style.isFloating (out.since mark) then out else out.append [Ascii.point, Ascii.zero]

/-- Writes a floating point number. -/
def floating (allowNonFinite : Bool) (x : Binary64) (out : Output) : Except WriteError Output :=
  if x.isFinite then .ok (floatingSuffix (out.append (numberStyle.shortest x)) out.size)
  else if !allowNonFinite then .error .nonFinite
  else if x.isNaN then .ok (out.append (Bytes.ofString "NaN"))
  else if x.negative then .ok (out.append (Bytes.ofString "-Infinity"))
  else .ok (out.append (Bytes.ofString "Infinity"))

/-- An integer. -/
def integer (n : Int64) : Bytes :=
  let digits := Bytes.decimal n.toInt.natAbs
  if n.toInt < 0 then Ascii.minus :: digits else digits

/-- Writes a value that is neither an array nor an object; of those nothing is written. -/
def scalar (allowNonFinite : Bool) : Value → Output → Except WriteError Output
  | .null, out => .ok (out.append (Bytes.ofString "null"))
  | .boolean true, out => .ok (out.append (Bytes.ofString "true"))
  | .boolean false, out => .ok (out.append (Bytes.ofString "false"))
  | .integer n, out => .ok (out.append (integer n))
  | .floating x, out => floating allowNonFinite x out
  | .string t, out => .ok (out.append (quoted t.bytes))
  | .array _, out | .object _, out => .ok out

end Write

end JsonTree
