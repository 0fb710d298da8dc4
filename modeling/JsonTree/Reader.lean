import JsonTree.Numeral
import JsonTree.Reader.Literal
import JsonTree.Token

/-!
# Reading a document

A reader is a token source over the bytes of a document: a cursor that moves forward
(`Reader.Reaches`), by which it is a bounded source (`Reader.bounded`).  Strings without escapes are
handed out as stretches of the document.  The operations trust no announcement: what they consume
is looked at again.  Once an error has been recorded, an operation that finds more goes on moving
the cursor, but announces neither an item nor a key.
-/

namespace JsonTree

/-- A cursor in a document. -/
structure Reader where
  source : Slice
  options : ReadOptions := {}
  position : Nat := 0

namespace Reader

open Ascii

/-! ### The cursor -/

/-- The byte at the cursor. -/
def here? (r : Reader) : Option UInt8 :=
  r.source.get? r.position

/-- How many bytes are left. -/
def remaining (r : Reader) : Nat :=
  r.source.size - r.position

/-- Begins to read a document. -/
def start (source : Slice) (options : ReadOptions) : Session Reader :=
  { state := { source, options } }

/-- Puts the cursor at an index. -/
def moveTo (s : Session Reader) (i : Nat) : Session Reader :=
  { s with state := { s.state with position := i } }

/-- Moves the cursor over one byte. -/
def step (s : Session Reader) : Session Reader :=
  moveTo s (s.state.position + 1)

/-- Moves the cursor over blanks. -/
def skipBlank (s : Session Reader) : Session Reader :=
  moveTo s (s.state.source.skipBlank s.state.position)

/-- Records an error at an index. -/
def failAt (s : Session Reader) (code : ErrorCode) (offset : Nat) : Session Reader :=
  s.fail s.state.source code offset

/-- Records an error at the cursor. -/
def failHere (s : Session Reader) (code : ErrorCode) : Session Reader :=
  failAt s code s.state.position

/-! ### What comes next -/

/-- What a value that begins with the given byte at the cursor is. -/
def kindOf (r : Reader) (b : UInt8) : Except ErrorCode Kind :=
  if b == 'n'.toUInt8 then .ok .null
  else if b == 't'.toUInt8 then .ok .true
  else if b == 'f'.toUInt8 then .ok .false
  else if b == quote then .ok .string
  else if b == openBracket then .ok .array
  else if b == openBrace then .ok .object
  else if b == minus then
    match r.source.get? (r.position + 1) with
    | none => .error .invalidNumber
    | some next =>
      if isDigit next || (r.options.allowNonFinite && next == 'I'.toUInt8) then .ok .number
      else .error .invalidNumber
  else if r.options.allowNonFinite && b == 'I'.toUInt8 then .ok .infinity
  else if r.options.allowNonFinite && b == 'N'.toUInt8 then .ok .nan
  else if isDigit b then .ok .number
  else .error .invalidValue

/-- Tells what comes behind the blanks at the cursor. -/
def peek (s : Session Reader) : Kind × Session Reader :=
  let s := skipBlank s
  match s.state.here? with
  | none => (.null, failHere s .unexpectedEnd)
  | some b =>
    match s.state.kindOf b with
    | .ok kind => (kind, s)
    | .error code => (.null, failHere s code)

/-- Announces what comes next, unless an error has been recorded. -/
def announce (s : Session Reader) : Option Kind × Session Reader :=
  let (kind, s) := peek s
  (if s.failed then none else some kind, s)

/-! ### Words and strings -/

/-- Consumes a word; its letters are compared only if there are as many bytes left. -/
def readWord (word : Bytes) (s : Session Reader) : Session Reader :=
  let r := s.state
  if r.source.size < r.position + word.length then failHere s .unexpectedEnd
  else if r.source.startsAt r.position word then moveTo s (r.position + word.length)
  else failHere s .invalidValue

/-- Consumes the word for null. -/
def readNull (s : Session Reader) : Session Reader :=
  readWord (Bytes.ofString "null") s

/-- Consumes the word for the announced truth value; whatever is not announced as true is read as
false. -/
def readBool (kind : Kind) (s : Session Reader) : Bool × Session Reader :=
  if kind == .true then (true, readWord (Bytes.ofString "true") s)
  else (false, readWord (Bytes.ofString "false") s)

/-- Consumes a string literal. -/
def readString (s : Session Reader) : StringToken × Session Reader :=
  if s.state.here? = some quote then
    match Literal.read s.state.source s.state.position with
    | .error f => (.none, failAt (moveTo s f.stop) f.code f.offset)
    | .ok (.slice part, stop) => (⟨.slice part, true⟩, moveTo s stop)
    | .ok (.loose bs, stop) => (⟨.loose bs, false⟩, moveTo s stop)
  else (.none, failHere s .invalidString)

/-! ### Arrays and objects -/

/-- Consumes an opening bracket and announces the first item, or consumes an empty array. -/
def openArray (s : Session Reader) : Option Kind × Session Reader :=
  if s.state.here? = some openBracket then
    let s := skipBlank (step s)
    if s.state.here? = some closeBracket then (none, step s) else announce s
  else (none, failHere s .invalidValue)

/-- Consumes a comma and announces the next item, or consumes a closing bracket. -/
def nextItem (s : Session Reader) : Option Kind × Session Reader :=
  let s := skipBlank s
  match s.state.here? with
  | none => (none, failHere s .unexpectedEnd)
  | some b =>
    if b == comma then announce (step s)
    else if b == closeBracket then (none, step s)
    else (none, failAt (step s) .expectedCommaOrEnd s.state.position)

/-- Consumes a key and the colon behind it. -/
def readKey (s : Session Reader) : Option StringToken × Session Reader :=
  let s := skipBlank s
  match s.state.here? with
  | none => (none, failHere s .unexpectedEnd)
  | some b =>
    if b == quote then
      let (key, s) := readString s
      if s.failed then (none, s)
      else
        let s := skipBlank s
        match s.state.here? with
        | none => (none, failHere s .unexpectedEnd)
        | some b => if b == colon then (some key, step s) else (none, failHere s .expectedColon)
    else (none, failHere s .expectedKey)

/-- Consumes an opening brace and the first key with its colon, or consumes an empty object. -/
def openObject (s : Session Reader) : Option StringToken × Session Reader :=
  if s.state.here? = some openBrace then
    let s := skipBlank (step s)
    if s.state.here? = some closeBrace then (none, step s) else readKey s
  else (none, failHere s .invalidValue)

/-- Consumes a comma and the next key with its colon, or consumes a closing brace. -/
def nextKey (s : Session Reader) : Option StringToken × Session Reader :=
  let s := skipBlank s
  match s.state.here? with
  | none => (none, failHere s .unexpectedEnd)
  | some b =>
    if b == comma then readKey (step s)
    else if b == closeBrace then (none, step s)
    else (none, failAt (step s) .expectedCommaOrEnd s.state.position)

/-! ### Numbers -/

/-- The numeral at an index, and where it ends. -/
def numeralAt (s : Slice) (i : Nat) : Option (Numeral × Nat) :=
  let stop := s.seek (fun b => !Numeral.isPart b) (s.size - i) i
  (Numeral.scan (s.between i stop).bytes).map fun (n, _) => (n, i + n.text.length)

/-- A word for a number that is not finite begins at the cursor, as far as its first letters
tell. -/
def atNonFinite (r : Reader) : Bool :=
  match r.here? with
  | none => false
  | some b =>
    b == 'I'.toUInt8 || b == 'N'.toUInt8 ||
      (b == minus && r.source.get? (r.position + 1) == some 'I'.toUInt8)

/-- The words for numbers that are not finite. -/
def nonFiniteWords : List (Bytes × Binary64) :=
  [(Bytes.ofString "NaN", Binary64.nan), (Bytes.ofString "Infinity", Binary64.infinity),
    (Bytes.ofString "-Infinity", Binary64.negativeInfinity)]

/-- Consumes a number if it is an integer of 64 bits; otherwise the cursor stays before it. -/
def readInteger (s : Session Reader) : IntegerToken × Session Reader :=
  let s := skipBlank s
  if s.state.options.allowNonFinite && s.state.atNonFinite then (.notInteger, s)
  else
    match numeralAt s.state.source s.state.position with
    | none => (.notInteger, failHere s .invalidNumber)
    | some (n, stop) =>
      if n.isInteger then
        match n.toInt64? with
        | none => (.tooLarge, s)
        | some i => (.value i, moveTo s stop)
      else (.notInteger, s)

/-- Consumes a number as the nearest floating point number; a finite number must not round to
infinity. -/
def readFloat (s : Session Reader) : Binary64 × Session Reader :=
  let s := skipBlank s
  let r := s.state
  let word? :=
    if r.options.allowNonFinite then
      nonFiniteWords.find? fun (word, _) => r.source.startsAt r.position word
    else none
  match word? with
  | some (word, x) => (x, moveTo s (r.position + word.length))
  | none =>
    match numeralAt r.source r.position with
    | none => (Binary64.zero, failHere s .invalidNumber)
    | some (n, stop) =>
      let x := n.toBinary64
      if x.isFinite then (x, moveTo s stop)
      else (Binary64.zero, failHere s .numberOutOfRange)

/-! ### The end of the document -/

/-- Checks that only blanks follow, if that is asked for. -/
def finish (s : Session Reader) : Bool × Session Reader :=
  let s := skipBlank s
  if s.state.options.requireEnd && s.state.position != s.state.source.size then
    (false, failHere s .trailingCharacters)
  else (true, s)

/-- The reader as a token source. -/
def tokens : TokenSource Reader where
  document r := r.source
  position r := r.position
  peek := peek
  readNull := readNull
  readBool := readBool
  readString := readString
  openArray := openArray
  nextItem := nextItem
  openObject := openObject
  nextKey := nextKey
  readInteger := readInteger
  readFloat := readFloat

end Reader

end JsonTree
