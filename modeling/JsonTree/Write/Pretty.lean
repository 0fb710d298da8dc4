import JsonTree.Output
import JsonTree.Write.Scalar

/-!
# The pretty layout

Every item and every member stands on a line of its own, indented by two spaces for each array and
object around it; the end of an array or object stands below its beginning.  An array or object
without content is written on one line.
-/

namespace JsonTree

namespace Write

open Ascii

/-- How many spaces an array or object adds to the indentation. -/
def indentStep : Nat := 2

/-- Writes the indentation of a line. -/
def indentation (out : Output) (indent : Nat) : Output :=
  out.append (List.replicate indent space)

/-- Writes a comma unless nothing more follows, and ends the line. -/
def endLine (out : Output) (isLast : Bool) : Output :=
  (if isLast then out else out.push comma).push newline

mutual

/-- Writes a value that stands at an indentation. -/
def pretty (allowNonFinite : Bool) (indent : Nat) : Value → Output → Except WriteError Output
  | .array [], out => .ok ((out.push openBracket).push closeBracket)
  | .array (v :: vs), out => do
    let out ← prettyItems allowNonFinite (indent + indentStep) (v :: vs)
      ((out.push openBracket).push newline)
    return (indentation out indent).push closeBracket
  | .object [], out => .ok ((out.push openBrace).push closeBrace)
  | .object (m :: ms), out => do
    let out ← prettyMembers allowNonFinite (indent + indentStep) (m :: ms)
      ((out.push openBrace).push newline)
    return (indentation out indent).push closeBrace
  | v, out => scalar allowNonFinite v out

/-- Writes items, each on its line. -/
def prettyItems (allowNonFinite : Bool) (indent : Nat) :
    List Value → Output → Except WriteError Output
  | [], out => .ok out
  | v :: vs, out => do
    let out ← pretty allowNonFinite indent v (indentation out indent)
    prettyItems allowNonFinite indent vs (endLine out vs.isEmpty)

/-- Writes members, each on its line. -/
def prettyMembers (allowNonFinite : Bool) (indent : Nat) :
    Members → Output → Except WriteError Output
  | [], out => .ok out
  | (k, v) :: ms, out => do
    let out := (indentation out indent).append (quoted k.bytes)
    let out ← pretty allowNonFinite indent v ((out.push colon).push space)
    prettyMembers allowNonFinite indent ms (endLine out ms.isEmpty)

end

end Write

end JsonTree
