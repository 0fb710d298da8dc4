/-!
# Bytes

Documents, strings and written text are sequences of bytes; nothing here assumes that they form
characters.  The named bytes are the ones the document format gives a meaning to, and the classes
are the ones its rules speak of: blanks between tokens, digits, and the control bytes that may not
stand bare inside a string.
-/

namespace JsonTree

/-- A sequence of bytes. -/
abbrev Bytes := List UInt8

namespace Ascii

/-- The byte of `"`. -/
abbrev quote : UInt8 := 0x22
/-- The byte of `\`. -/
abbrev backslash : UInt8 := 0x5C
/-- The byte of `/`. -/
abbrev slash : UInt8 := 0x2F
/-- The byte of `,`. -/
abbrev comma : UInt8 := 0x2C
/-- The byte of `:`. -/
abbrev colon : UInt8 := 0x3A
/-- The byte of `[`. -/
abbrev openBracket : UInt8 := 0x5B
/-- The byte of `]`. -/
abbrev closeBracket : UInt8 := 0x5D
/-- The byte of `{`. -/
abbrev openBrace : UInt8 := 0x7B
/-- The byte of `}`. -/
abbrev closeBrace : UInt8 := 0x7D
/-- The byte of `-`. -/
abbrev minus : UInt8 := 0x2D
/-- The byte of `+`. -/
abbrev plus : UInt8 := 0x2B
/-- The byte of `.`. -/
abbrev point : UInt8 := 0x2E
/-- The byte of the digit zero. -/
abbrev zero : UInt8 := 0x30
/-- The byte of the digit nine. -/
abbrev nine : UInt8 := 0x39
/-- The byte of `^`. -/
abbrev caret : UInt8 := 0x5E
/-- The backspace byte. -/
abbrev backspace : UInt8 := 0x08
/-- The horizontal tab. -/
abbrev tab : UInt8 := 0x09
/-- The line feed. -/
abbrev newline : UInt8 := 0x0A
/-- The form feed. -/
abbrev formFeed : UInt8 := 0x0C
/-- The carriage return. -/
abbrev carriageReturn : UInt8 := 0x0D
/-- The space. -/
abbrev space : UInt8 := 0x20
/-- The last control byte. -/
abbrev lastControl : UInt8 := 0x1F

/-- Space, line feed, carriage return or tab. -/
def isBlank (b : UInt8) : Bool :=
  b == space || b == newline || b == carriageReturn || b == tab

/-- One of `0` to `9`. -/
def isDigit (b : UInt8) : Bool :=
  zero ≤ b && b ≤ nine

/-- A byte up to `0x1F`. -/
def isControl (b : UInt8) : Bool :=
  b ≤ lastControl

/-- The number a digit stands for. -/
def digitValue (b : UInt8) : Nat :=
  b.toNat - 0x30

/-- The number that decimal digits stand for. -/
def natOfDigits (bs : Bytes) : Nat :=
  bs.foldl (fun total b => total * 10 + digitValue b) 0

end Ascii

namespace Bytes

/-- The bytes of a text. -/
def ofString (s : String) : Bytes :=
  s.toUTF8.data.toList

/-- The part before the first zero byte: what is left of a text whose end a zero byte marks. -/
def untilZero (bs : Bytes) : Bytes :=
  bs.takeWhile (· != 0)

/-- The decimal digits of a number, without leading zeros. -/
def decimal (n : Nat) : Bytes :=
  (Nat.toDigits 10 n).map fun c => c.toNat.toUInt8

/-- Order by the first differing byte, a proper beginning first. -/
def before : Bytes → Bytes → Bool
  | _, [] => false
  | [], _ :: _ => true
  | a :: as, b :: bs => a < b || (a == b && before as bs)

end Bytes

end JsonTree
