import JsonTree.Value

/-!
# Reaching into a value

A path leads from a value to a value inside it, through arrays by index and through objects by key.
An edit changes the value at the end of a path and leaves all others alone.  An index asks for an
array; a key asks whatever value it meets, and only an object has an answer.
-/

namespace JsonTree

/-- One step of a path. -/
inductive PathStep where
  /-- The item at an index. -/
  | item (index : Nat)
  /-- The value under a key. -/
  | key (key : Bytes)

/-- Why an operation inside a value fails. -/
inductive EditError where
  /-- The operation asks for another kind of value. -/
  | wrongKind
  /-- The path leads nowhere. -/
  | noPath
  deriving DecidableEq

namespace Members

/-- Changes the value of the first member with a key; `none` when there is none. -/
def modifyFirst {ε α : Type} (key : Bytes) (f : Value → Except ε (α × Value)) :
    Members → Option (Except ε (α × Members))
  | [] => none
  | m :: rest =>
    if m.hasKey key then
      some ((f m.2).map fun (a, v) => (a, (m.1, v) :: rest))
    else
      (modifyFirst key f rest).map fun r => r.map fun (a, ms) => (a, m :: ms)

end Members

namespace Value

/-- Changes the value at the end of a path, and answers what the change answers. -/
def modifyAt {α : Type} (path : List PathStep) (f : Value → Except EditError (α × Value))
    (v : Value) : Except EditError (α × Value) :=
  match path with
  | [] => f v
  | .item i :: path =>
    match v with
    | array items =>
      match items[i]? with
      | none => .error .noPath
      | some item => (modifyAt path f item).map fun (a, item) => (a, array (items.set i item))
    | _ => .error .wrongKind
  | .key key :: path =>
    match v with
    | object members =>
      match Members.modifyFirst key (modifyAt path f) members with
      | none => .error .noPath
      | some r => r.map fun (a, members) => (a, object members)
    | _ => .error .noPath

end Value

/-- A change of one value that also answers something. -/
abbrev Edit (α : Type) := Value → Except EditError (α × Value)

namespace Edit

/-- Puts another value in place. -/
def replace (v : Value) : Edit Unit :=
  fun _ => .ok ((), v)

/-- Answers a question and changes nothing. -/
def ask {α : Type} (f : Value → Except EditError α) : Edit α :=
  fun v => (f v).map fun a => (a, v)

/-- Appends an item to an array and answers the new number of items. -/
def push (item : Value) : Edit Nat
  | .array items => .ok (items.length + 1, .array (items ++ [item]))
  | _ => .error .wrongKind

/-- Gives a key of an object a value. -/
def insert (key : Text) (value : Value) : Edit Members
  | .object members =>
    let members := Members.insert members key value
    .ok (members, .object members)
  | _ => .error .wrongKind

end Edit

namespace Value

/-- The members of an object. -/
def members (v : Value) : Except EditError Members :=
  match v with
  | object members => .ok members
  | _ => .error .wrongKind

/-- The number of members of an object or of items of an array. -/
def length (v : Value) : Except EditError Nat :=
  match v with
  | object members => .ok members.length
  | array items => .ok items.length
  | _ => .error .wrongKind

end Value

end JsonTree
