import JsonTree.Error
import JsonTree.Slice.Scan

/-!
# Errors in words

An error is described in three lines: the cause and its place in numbers, the line of the document
it stands on, and a caret below the offending byte.  A long line is clipped around that byte, and
what would shift the caret, a tab or a carriage return, is shown as a space.  Without a document
only the first line is written.
-/

namespace JsonTree

/-- The part of a line around an offset. -/
structure Excerpt where
  /-- The bytes of the line in front of the offset that are shown. -/
  ahead : Bytes
  /-- The bytes of the line from the offset on that are shown. -/
  behind : Bytes

namespace Excerpt

/-- How much of a line is shown on each side of the offset. -/
def reach : Nat := 40

/-- Where the line begins that an index is on: right behind the last newline in front of it. -/
def lineStart (s : Slice) : Nat → Nat
  | 0 => 0
  | i + 1 => if s.get? i = some Ascii.newline then i + 1 else lineStart s i

/-- Where it ends: at the first newline from the index on, or at the end of the text. -/
def lineStop (s : Slice) (i : Nat) : Nat :=
  s.seek (· == Ascii.newline) (s.size - i) i

/-- The excerpt around an offset; an offset behind the end counts as the end. -/
def around (source : Bytes) (offset : Nat) : Excerpt :=
  let s := Slice.ofBytes 0 source
  let offset := min offset s.size
  let start := lineStart s offset
  let stop := lineStop s offset
  let first := if reach < offset - start then offset - reach else start
  let last := if reach < stop - offset then offset + reach else stop
  ⟨(s.between first offset).bytes, (s.between offset last).bytes⟩

/-- Shows a byte in the width of one column. -/
def visible (b : UInt8) : UInt8 :=
  if b == Ascii.tab || b == Ascii.carriageReturn then Ascii.space else b

/-- The line shown. -/
def line (x : Excerpt) : Bytes :=
  (x.ahead ++ x.behind).map visible

/-- The caret below the offset. -/
def marker (x : Excerpt) : Bytes :=
  List.replicate x.ahead.length Ascii.space ++ [Ascii.caret]

end Excerpt

namespace Error

/-- The cause and its place in numbers. -/
def header (e : Error) : Bytes :=
  Bytes.ofString e.code.message ++ Bytes.ofString " at line " ++ Bytes.decimal e.line ++
    Bytes.ofString ", column " ++ Bytes.decimal e.column ++
    Bytes.ofString " (offset " ++ Bytes.decimal e.offset ++ Bytes.ofString ")"

/-- The error in words, with the line of the document it stands on. -/
def describe (e : Error) (source : Bytes) : Bytes :=
  if source.isEmpty then e.header
  else
    let excerpt := Excerpt.around source e.offset
    e.header ++ Bytes.ofString "\n  " ++ excerpt.line ++ Bytes.ofString "\n  " ++ excerpt.marker

end Error

/-- What is recorded, in words. -/
def Fault.describe (fault : Fault) (source : Bytes) : Bytes :=
  match fault with
  | none => Bytes.ofString "ok"
  | some e => e.describe source

end JsonTree
