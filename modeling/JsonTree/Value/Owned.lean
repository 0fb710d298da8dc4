import JsonTree.Value.Table

/-!
# Borrowed and owned strings of a value

A value read from a document may hold strings that are views of it.  `toOwned` copies a value so
that it holds none, `borrows` tells whether it holds any, and a census counts the strings and keys
of both sorts and their bytes.
-/

namespace JsonTree

namespace Value

mutual

/-- The same value with copies of all its strings and keys. -/
def toOwned : Value → Value
  | string t => string t.toOwned
  | array items => array (ownedItems items)
  | object members => object (ownedMembers members Table.empty).toMembers
  | v => v

/-- The items, each made its own copy. -/
def ownedItems : List Value → List Value
  | [] => []
  | v :: rest => toOwned v :: ownedItems rest

/-- Inserts copies of the members into a table, one after the other. -/
def ownedMembers : Members → KeyTable → KeyTable
  | [], t => t
  | (key, v) :: rest, t => ownedMembers rest (t.insert key.toOwned (toOwned v))

end

mutual

/-- Some string or key of the value is a view. -/
def borrows : Value → Bool
  | string t => t.borrowed
  | array items => itemsBorrow items
  | object members => membersBorrow members
  | _ => false

/-- Some string or key of the items is a view. -/
def itemsBorrow : List Value → Bool
  | [] => false
  | v :: rest => borrows v || itemsBorrow rest

/-- Some key or some string or key of a value among the members is a view. -/
def membersBorrow : Members → Bool
  | [] => false
  | (key, v) :: rest => key.borrowed || borrows v || membersBorrow rest

end

end Value

/-- How many strings and keys of a value are views and how many are copies, and their bytes. -/
structure Census where
  borrowed : Nat := 0
  owned : Nat := 0
  borrowedBytes : Nat := 0
  ownedBytes : Nat := 0
  deriving DecidableEq

namespace Census

/-- Counts one more string. -/
def count (c : Census) (t : Text) : Census :=
  if t.borrowed then
    { c with borrowed := c.borrowed + 1, borrowedBytes := c.borrowedBytes + t.size }
  else
    { c with owned := c.owned + 1, ownedBytes := c.ownedBytes + t.size }

end Census

namespace Value

mutual

/-- Counts the strings and keys of a value on top of a count. -/
def countTexts : Value → Census → Census
  | string t, c => c.count t
  | array items, c => countItems items c
  | object members, c => countMembers members c
  | _, c => c

/-- Counts the strings and keys of items on top of a count. -/
def countItems : List Value → Census → Census
  | [], c => c
  | v :: rest, c => countItems rest (countTexts v c)

/-- Counts the keys of members and the strings and keys of their values on top of a count. -/
def countMembers : Members → Census → Census
  | [], c => c
  | (key, v) :: rest, c => countMembers rest (countTexts v (c.count key))

end

/-- The count of a value's strings and keys. -/
def census (v : Value) : Census :=
  v.countTexts {}

end Value

end JsonTree
