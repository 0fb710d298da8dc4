import Std.Data.TreeMap
import JsonTree.Value

/-!
# Tables

A table collects the members of an object while they are read.  It keeps them in order of first
insertion and, beside them, an index from the hash of a key to the places of the members whose keys
have that hash, so that an insertion does not look at every member.  Which hash is used does not
matter to any answer: keys with equal hashes are told apart by their bytes.
-/

namespace JsonTree

/-- Members in order of first insertion, indexed by the hash of their keys. -/
structure Table (hash : Bytes → UInt64) where
  /-- The members in order. -/
  entries : Array Member := #[]
  /-- The places of the members whose keys have a given hash. -/
  index : Std.TreeMap UInt64 (List Nat) := ∅

namespace Table

variable {hash : Bytes → UInt64}

/-- No members. -/
def empty : Table hash :=
  {}

/-- The number of members. -/
def size (t : Table hash) : Nat :=
  t.entries.size

/-- The members in order. -/
def toMembers (t : Table hash) : Members :=
  t.entries.toList

/-- The places of the members whose keys have the hash of this one. -/
def bucket (t : Table hash) (key : Bytes) : List Nat :=
  t.index.getD (hash key) []

/-- The place of a key. -/
def place? (t : Table hash) (key : Bytes) : Option Nat :=
  (t.bucket key).find? fun i => t.entries[i]?.any (Member.hasKey key)

/-- The value under a key. -/
def find? (t : Table hash) (key : Bytes) : Option Value :=
  (t.place? key).bind fun i => t.entries[i]?.map (·.2)

/-- There is a value under a key. -/
def contains (t : Table hash) (key : Bytes) : Bool :=
  (t.find? key).isSome

/-- Gives a key a value: in its place when the key is there already, at the end otherwise.  The key
that was there first stays. -/
def insert (t : Table hash) (key : Text) (value : Value) : Table hash :=
  match t.place? key.bytes with
  | some i => { t with entries := t.entries.modify i fun m => (m.1, value) }
  | none =>
    { entries := t.entries.push (key, value)
      index := t.index.insert (hash key.bytes) (t.entries.size :: t.bucket key.bytes) }

end Table

/-- Mixes the bytes of a key into 64 bits, one after the other. -/
def keyHash (key : Bytes) : UInt64 :=
  key.foldl (fun h b => (h ^^^ b.toUInt64) * 0x100000001B3) 0xCBF29CE484222325

/-- The table that objects are built with. -/
abbrev KeyTable := Table keyHash

end JsonTree
