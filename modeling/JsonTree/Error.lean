import JsonTree.Slice

/-!
# Errors

An error has a cause and a place in the document: an offset, and the line and column of that offset
counted in bytes from one.  An error record keeps the first error only (`Fault.record`).
-/

namespace JsonTree

/-- Why a document cannot be read or built. -/
inductive ErrorCode where
  | unexpectedEnd
  | invalidValue
  | invalidNumber
  | invalidString
  | invalidEscape
  | invalidUnicodeEscape
  | invalidSurrogate
  | invalidUtf8
  | expectedColon
  | expectedCommaOrEnd
  | expectedKey
  | trailingCharacters
  | integerTooLarge
  | numberOutOfRange
  | unsupportedToken
  | unresolvedMinus
  | nestingTooDeep
  /-- A cause without a name of its own. -/
  | unknown
  deriving DecidableEq

/-- What kind of fault a cause is. -/
inductive ErrorCategory where
  /-- The text is not a document. -/
  | lexical
  /-- The document is well formed but holds what a value cannot. -/
  | unsupportedShape
  /-- The token source broke its contract. -/
  | structuralDefect
  /-- A limit set by the caller. -/
  | limit
  deriving DecidableEq

namespace ErrorCode

/-- The kind of fault. -/
def category : ErrorCode → ErrorCategory
  | integerTooLarge | numberOutOfRange | unsupportedToken => .unsupportedShape
  | unresolvedMinus => .structuralDefect
  | nestingTooDeep => .limit
  | _ => .lexical

/-- The wording of a cause. -/
def message : ErrorCode → String
  | unexpectedEnd => "unexpected end of input"
  | invalidValue => "invalid value"
  | invalidNumber => "invalid number"
  | invalidString => "invalid string"
  | invalidEscape => "invalid escape sequence"
  | invalidUnicodeEscape => "invalid unicode escape"
  | invalidSurrogate => "invalid utf-16 surrogate"
  | invalidUtf8 => "invalid utf-8"
  | expectedColon => "expected ':'"
  | expectedCommaOrEnd => "expected ',' or end of container"
  | expectedKey => "expected string key"
  | trailingCharacters => "trailing characters"
  | integerTooLarge => "integer does not fit in 64 bits"
  | numberOutOfRange => "number does not fit in a double"
  | unsupportedToken => "unsupported token kind"
  | unresolvedMinus => "unresolved minus sign from token source"
  | nestingTooDeep => "nesting too deep"
  | unknown => "unknown error"

end ErrorCode

/-- A line and a column, both counted from one. -/
structure LineColumn where
  line : Nat
  column : Nat
  deriving DecidableEq

namespace LineColumn

/-- The beginning of a document. -/
def first : LineColumn :=
  ⟨1, 1⟩

/-- The place behind one more byte. -/
def next (place : LineColumn) (b : UInt8) : LineColumn :=
  if b == Ascii.newline then ⟨place.line + 1, 1⟩ else ⟨place.line, place.column + 1⟩

/-- The place behind the given bytes. -/
def behind (bs : Bytes) : LineColumn :=
  bs.foldl next first

end LineColumn

/-- A cause and its place. -/
structure Error where
  code : ErrorCode
  /-- The index of a byte of the document; the size of the document, or more, when no byte is to
  blame. -/
  offset : Nat
  line : Nat
  column : Nat
  deriving DecidableEq

namespace Error

/-- An error at an offset of a document; an offset behind the end has the end's line and column. -/
def locate (source : Slice) (code : ErrorCode) (offset : Nat) : Error :=
  let place := LineColumn.behind (source.ahead 0 offset)
  ⟨code, offset, place.line, place.column⟩

end Error

/-- A record of at most one error. -/
abbrev Fault := Option Error

namespace Fault

/-- Records an error unless one has been recorded. -/
def record (fault : Fault) (source : Slice) (code : ErrorCode) (offset : Nat) : Fault :=
  match fault with
  | some e => some e
  | none => some (Error.locate source code offset)

/-- The wording of what is recorded. -/
def message : Fault → String
  | none => "ok"
  | some e => e.code.message

/-- Once an error is recorded there is one. -/
theorem isSome_record (fault : Fault) (source : Slice) (code : ErrorCode) (offset : Nat) :
    (fault.record source code offset).isSome = true := by
  cases fault <;> rfl

end Fault

end JsonTree
