import JsonTree.Output
import JsonTree.Write.Scalar

/-!
# The compact layout

Nothing is written between the tokens.  The writer keeps the values it is inside of on a stack, so
that a deep value needs no deep recursion.  How many children of the uppermost value were written
already decides what comes next: its beginning, a comma or its end.
-/

namespace JsonTree

mutual

/-- A bound for the steps that writing the content of a value takes. -/
def Value.steps : Value → Nat
  | .array items => Value.itemSteps items
  | .object members => Value.memberSteps members
  | _ => 0

/-- A bound for the steps that writing items and the end of their array takes. -/
def Value.itemSteps : List Value → Nat
  | [] => 1
  | v :: rest => Value.steps v + Value.itemSteps rest + 2

/-- A bound for the steps that writing members and the end of their object takes. -/
def Value.memberSteps : Members → Nat
  | [] => 1
  | (_, v) :: rest => Value.steps v + Value.memberSteps rest + 2

end

namespace Write

open Ascii

/-- A value on the writer's stack. -/
structure Frame where
  /-- The value, without the children that were written already. -/
  left : Value
  /-- How many children were written already. -/
  index : Nat := 0

/-- Writes a key and the colon behind it. -/
def key (out : Output) (t : Text) : Output :=
  (out.append (quoted t.bytes)).push colon

/-- Begins an array or object of which nothing was written yet. -/
def begin (bracket : UInt8) (index : Nat) (out : Output) : Output :=
  if index = 0 then out.push bracket else out

/-- Separates a child from the one before it. -/
def separate (index : Nat) (out : Output) : Output :=
  if 0 < index then out.push comma else out

/-- Writes what is left of the values on the stack, the uppermost first. -/
def compact (allowNonFinite : Bool) (stack : List Frame) (out : Output) :
    Except WriteError Output :=
  match stack with
  | [] => .ok out
  | ⟨.array [], index⟩ :: frames =>
    compact allowNonFinite frames ((begin openBracket index out).push closeBracket)
  | ⟨.array (v :: vs), index⟩ :: frames =>
    compact allowNonFinite ({ left := v } :: ⟨.array vs, index + 1⟩ :: frames)
      (separate index (begin openBracket index out))
  | ⟨.object [], index⟩ :: frames =>
    compact allowNonFinite frames ((begin openBrace index out).push closeBrace)
  | ⟨.object ((k, v) :: ms), index⟩ :: frames =>
    compact allowNonFinite ({ left := v } :: ⟨.object ms, index + 1⟩ :: frames)
      (key (separate index (begin openBrace index out)) k)
  | ⟨v, _⟩ :: frames =>
    match scalar allowNonFinite v out with
    | .error e => .error e
    | .ok out => compact allowNonFinite frames out
termination_by stack.foldr (fun frame total => frame.left.steps + 1 + total) 0
decreasing_by
  all_goals simp only [List.foldr_cons, Value.steps, Value.itemSteps, Value.memberSteps]
  all_goals omega

end Write

end JsonTree
