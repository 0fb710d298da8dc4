import JsonTree.Value

/-!
# Equality of values

Two values are equal when they are of one kind and have equal content.  Numbers compare as numbers,
so what is no number makes a value differ from itself; strings compare by their bytes; arrays item
by item.  Objects compare as finite functions: as many members on both sides, and every key of the
one found in the other with an equal value.  Where bytes are kept and in which order members stand
has no say.
-/

namespace JsonTree

namespace Value

mutual

/-- The values are equal. -/
def equal : Value → Value → Bool
  | null, null => true
  | boolean a, boolean b => a == b
  | integer a, integer b => a == b
  | floating a, floating b => a.sameNumber b
  | string a, string b => a.sameBytes b
  | array as, array bs => equalItems as bs
  | object as, object bs => as.length == bs.length && equalMembers as bs
  | _, _ => false

/-- The items are equal one by one. -/
def equalItems : List Value → List Value → Bool
  | [], [] => true
  | a :: as, b :: bs => equal a b && equalItems as bs
  | _, _ => false

/-- Every member is found among the others, with an equal value. -/
def equalMembers : Members → Members → Bool
  | [], _ => true
  | (key, a) :: rest, others =>
    (match Members.find? others key.bytes with
      | none => false
      | some b => equal a b) &&
    equalMembers rest others

end

/-- The values are not equal. -/
def differ (a b : Value) : Bool :=
  !a.equal b

end Value

namespace Members

/-- The members are equal: as many on both sides, and every one found among the others, with an
equal value. -/
def equal (as bs : Members) : Bool :=
  as.length == bs.length && Value.equalMembers as bs

/-- The members are not equal. -/
def differ (as bs : Members) : Bool :=
  !as.equal bs

end Members

end JsonTree
