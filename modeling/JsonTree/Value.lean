import JsonTree.Binary64.Rounding
import JsonTree.Text

/-!
# Document values

A value is what a document denotes: null, a boolean, an integer of 64 bits, a floating point
number, a string, an array, or an object.  The members of an object stand in the order in which
their keys were first met; an object built by the operations of this library has no key twice
(`Members.insert`).  Each accessor answers on its own kind of value only.
-/

namespace JsonTree

/-- The value of a document. -/
inductive Value where
  | null
  | boolean (b : Bool)
  | integer (n : Int64)
  | floating (x : Binary64)
  | string (text : Text)
  | array (items : List Value)
  | object (members : List (Text × Value))

/-- The kinds of value. -/
inductive ValueKind where
  | null
  | boolean
  | integer
  | floating
  | string
  | array
  | object
  deriving DecidableEq

/-- A key and its value. -/
abbrev Member := Text × Value

namespace Member

/-- The key's bytes are the ones looked for. -/
def hasKey (key : Bytes) (m : Member) : Bool :=
  m.1.bytes == key

end Member

/-- The members of an object, in order. -/
abbrev Members := List Member

namespace Members

/-- The value of the first member with a key. -/
def find? (members : Members) (key : Bytes) : Option Value :=
  (List.find? (Member.hasKey key) members).map (·.2)

/-- Gives a key a value: in its place when the key is there already, at the end otherwise.  The key
that was there first stays. -/
def insert : Members → Text → Value → Members
  | [], key, value => [(key, value)]
  | m :: rest, key, value =>
    if m.hasKey key.bytes then (m.1, value) :: rest else m :: insert rest key value

/-- Members given one after the other, a repeated key taking the last value. -/
def ofList (members : List Member) : Members :=
  members.foldl (fun ms m => Members.insert ms m.1 m.2) []

end Members

namespace Value

/-- The kind of a value. -/
def kind : Value → ValueKind
  | null => .null
  | boolean _ => .boolean
  | integer _ => .integer
  | floating _ => .floating
  | string _ => .string
  | array _ => .array
  | object _ => .object

/-- An integer or a floating point number. -/
def isNumber (v : Value) : Bool :=
  v.kind == .integer || v.kind == .floating

/-- The truth value of a boolean. -/
def boolean? : Value → Option Bool
  | boolean b => some b
  | _ => none

/-- The number of an integer. -/
def integer? : Value → Option Int64
  | integer n => some n
  | _ => none

/-- The number of a floating point value. -/
def floating? : Value → Option Binary64
  | floating x => some x
  | _ => none

/-- Any number as a floating point number, an integer being rounded to the nearest. -/
def number? : Value → Option Binary64
  | integer n => some (Binary64.ofInt n.toInt)
  | floating x => some x
  | _ => none

/-- The text of a string. -/
def string? : Value → Option Text
  | string t => some t
  | _ => none

/-- The items of an array. -/
def array? : Value → Option (List Value)
  | array items => some items
  | _ => none

/-- The members of an object. -/
def object? : Value → Option Members
  | object members => some members
  | _ => none

/-- The value under a key; only an object has any. -/
def find? (v : Value) (key : Bytes) : Option Value :=
  v.object?.bind fun members => Members.find? members key

end Value

end JsonTree
