import JsonTree.Slice

/-!
# Strings and where their bytes are kept

The text of a string or key is either borrowed, a view of the document it was read from, or owned,
a copy of its own.  Equality and order look at the bytes alone.  A text is borrowed only when its
bytes are known to lie inside the document, which is a matter of place and not of content
(`Text.ofCharacters`).
-/

namespace JsonTree

/-- The characters of a string that has been read. -/
inductive Characters where
  /-- A stretch of some buffer. -/
  | slice (s : Slice)
  /-- Bytes that lie in no buffer. -/
  | loose (bs : Bytes)

namespace Characters

/-- The bytes of the characters. -/
def bytes : Characters → Bytes
  | slice s => s.bytes
  | loose bs => bs

/-- The characters are a stretch of the given slice. -/
def within (source : Slice) : Characters → Bool
  | slice s => source.covers s
  | loose _ => false

end Characters

/-- The text of a string or key. -/
structure Text where
  /-- The bytes. -/
  bytes : Bytes
  /-- A view of the document, not a copy. -/
  borrowed : Bool
  deriving DecidableEq

namespace Text

/-- A text with bytes of its own. -/
def own (bs : Bytes) : Text :=
  ⟨bs, false⟩

/-- A view of bytes kept elsewhere. -/
def borrow (bs : Bytes) : Text :=
  ⟨bs, true⟩

/-- How many bytes the text has. -/
def size (t : Text) : Nat :=
  t.bytes.length

/-- The text has no bytes. -/
def isEmpty (t : Text) : Bool :=
  t.bytes.isEmpty

/-- The same bytes as a copy of its own. -/
def toOwned (t : Text) : Text :=
  own t.bytes

/-- The bytes agree, wherever they are kept. -/
def sameBytes (a b : Text) : Bool :=
  a.bytes == b.bytes

/-- Order by the first differing byte. -/
def before (a b : Text) : Bool :=
  a.bytes.before b.bytes

/-- A view when the characters lie inside the source, a copy otherwise. -/
def ofCharacters (source : Option Slice) (characters : Characters) : Text :=
  ⟨characters.bytes, source.any fun s => characters.within s⟩

end Text

end JsonTree
