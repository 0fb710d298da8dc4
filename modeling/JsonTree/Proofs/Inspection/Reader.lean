import JsonTree.Proofs.Inspection.Literal
import JsonTree.Proofs.Inspection.Number

/-!
# Inspection by a reader

The operations of a reader, as computations that see a cursor, the size of the document and the
bytes they look at.  A cursor is handed on where a reader hands on its session; the document itself
is not at hand, so a string is handed out as the place where it stands or as the bytes it is made of
(`Found`).  `Follows` joins such a computation to what a reader does: it comes to the same cursor,
with the same error on record, and to what is in the document the answer of the reader.

Every operation tests itself for what it looks at.  Only where a number is read, what is left of the
document is asked for as a whole, and there the cursor must not lie behind the end
(`follows_readInteger`, `follows_readFloat`).
-/

namespace JsonTree

namespace Inspection

open Ascii

/-- A place in a document, and the error record. -/
structure Cursor where
  position : Nat
  fault : Fault := none

/-- The cursor of a reader. -/
def Cursor.of (s : Session Reader) : Cursor :=
  ⟨s.state.position, s.fault⟩

@[simp] theorem Cursor.of_position (s : Session Reader) : (Cursor.of s).position = s.state.position :=
  rfl

@[simp] theorem Cursor.of_fault (s : Session Reader) : (Cursor.of s).fault = s.fault := rfl

/-- The cursor at another place. -/
def Cursor.moveTo (c : Cursor) (i : Nat) : Cursor :=
  { c with position := i }

/-- The token for the characters that are found, in a document: a stretch of it is marked as
borrowed. -/
def Found.token (s : Slice) : Found → StringToken
  | part i n => ⟨.slice (s.sub i n), true⟩
  | loose bs => ⟨.loose bs, false⟩

section Operations

variable (size : Nat) (options : ReadOptions)

/-- Records an error at an index, unless one has been recorded; the bytes in front of it are looked
at to count lines and columns. -/
def failAt (code : ErrorCode) (offset : Nat) (c : Cursor) : Inspection Cursor :=
  match c.fault with
  | some _ => return c
  | none => do
    let front ← bytes (min offset size) 0
    let place := LineColumn.behind front
    return { c with fault := some ⟨code, offset, place.line, place.column⟩ }

/-- Records an error at the cursor. -/
def failHere (code : ErrorCode) (c : Cursor) : Inspection Cursor :=
  failAt size code c.position c

/-- Moves the cursor over blanks. -/
def overBlanks (c : Cursor) : Inspection Cursor := do
  return c.moveTo (← skipBlank size c.position)

/-- What a value that begins with the given byte at an index is. -/
def kindOf (i : Nat) (b : UInt8) : Inspection (Except ErrorCode Kind) := do
  if b == 'n'.toUInt8 then return .ok .null
  else if b == 't'.toUInt8 then return .ok .true
  else if b == 'f'.toUInt8 then return .ok .false
  else if b == quote then return .ok .string
  else if b == openBracket then return .ok .array
  else if b == openBrace then return .ok .object
  else if b == Ascii.minus then
    match ← byte? size (i + 1) with
    | none => return .error .invalidNumber
    | some next =>
      return if isDigit next || (options.allowNonFinite && next == 'I'.toUInt8) then .ok .number
        else .error .invalidNumber
  else if options.allowNonFinite && b == 'I'.toUInt8 then return .ok .infinity
  else if options.allowNonFinite && b == 'N'.toUInt8 then return .ok .nan
  else if isDigit b then return .ok .number
  else return .error .invalidValue

/-- Tells what comes behind the blanks at the cursor. -/
def peek (c : Cursor) : Inspection (Kind × Cursor) := do
  let c ← overBlanks size c
  match ← byte? size c.position with
  | none => return (.null, ← failHere size .unexpectedEnd c)
  | some b =>
    match ← kindOf size options c.position b with
    | .ok kind => return (kind, c)
    | .error code => return (.null, ← failHere size code c)

/-- Announces what comes next, unless an error has been recorded. -/
def announce (c : Cursor) : Inspection (Option Kind × Cursor) := do
  let (kind, c) ← peek size options c
  return (if c.fault.isSome then none else some kind, c)

/-- Consumes a word; its letters are looked at only if there are as many bytes left. -/
def readWord (word : Bytes) (c : Cursor) : Inspection Cursor := do
  if size < c.position + word.length then failHere size .unexpectedEnd c
  else
    let front ← bytes word.length c.position
    if front == word then return c.moveTo (c.position + word.length)
    else failHere size .invalidValue c

/-- Consumes the word for the announced truth value. -/
def readBool (kind : Kind) (c : Cursor) : Inspection (Bool × Cursor) := do
  if kind == .true then return (true, ← readWord size (Bytes.ofString "true") c)
  else return (false, ← readWord size (Bytes.ofString "false") c)

/-- Consumes a string literal. -/
def readString (c : Cursor) : Inspection (Found × Cursor) := do
  if (← byte? size c.position) = some quote then
    match ← literal size c.position with
    | .error f => return (.loose [], ← failAt size f.code f.offset (c.moveTo f.stop))
    | .ok (found, stop) => return (found, c.moveTo stop)
  else return (.loose [], ← failHere size .invalidString c)

/-- Consumes an opening bracket and announces the first item, or consumes an empty array. -/
def openArray (c : Cursor) : Inspection (Option Kind × Cursor) := do
  if (← byte? size c.position) = some openBracket then
    let c ← overBlanks size (c.moveTo (c.position + 1))
    if (← byte? size c.position) = some closeBracket then
      return (none, c.moveTo (c.position + 1))
    else announce size options c
  else return (none, ← failHere size .invalidValue c)

/-- Consumes a comma and announces the next item, or consumes a closing bracket. -/
def nextItem (c : Cursor) : Inspection (Option Kind × Cursor) := do
  let c ← overBlanks size c
  match ← byte? size c.position with
  | none => return (none, ← failHere size .unexpectedEnd c)
  | some b =>
    let next := c.moveTo (c.position + 1)
    if b == comma then announce size options next
    else if b == closeBracket then return (none, next)
    else return (none, ← failAt size .expectedCommaOrEnd c.position next)

/-- Consumes a key and the colon behind it. -/
def readKey (c : Cursor) : Inspection (Option Found × Cursor) := do
  let c ← overBlanks size c
  match ← byte? size c.position with
  | none => return (none, ← failHere size .unexpectedEnd c)
  | some b =>
    if b == quote then
      let (key, c) ← readString size c
      if c.fault.isSome then return (none, c)
      else
        let c ← overBlanks size c
        match ← byte? size c.position with
        | none => return (none, ← failHere size .unexpectedEnd c)
        | some b =>
          if b == colon then return (some key, c.moveTo (c.position + 1))
          else return (none, ← failHere size .expectedColon c)
    else return (none, ← failHere size .expectedKey c)

/-- Consumes an opening brace and the first key with its colon, or consumes an empty object. -/
def openObject (c : Cursor) : Inspection (Option Found × Cursor) := do
  if (← byte? size c.position) = some openBrace then
    let c ← overBlanks size (c.moveTo (c.position + 1))
    if (← byte? size c.position) = some closeBrace then
      return (none, c.moveTo (c.position + 1))
    else readKey size c
  else return (none, ← failHere size .invalidValue c)

/-- Consumes a comma and the next key with its colon, or consumes a closing brace. -/
def nextKey (c : Cursor) : Inspection (Option Found × Cursor) := do
  let c ← overBlanks size c
  match ← byte? size c.position with
  | none => return (none, ← failHere size .unexpectedEnd c)
  | some b =>
    let next := c.moveTo (c.position + 1)
    if b == comma then readKey size next
    else if b == closeBrace then return (none, next)
    else return (none, ← failAt size .expectedCommaOrEnd c.position next)

/-- A word for a number that is not finite is allowed and begins at an index, as far as its first
letters tell. -/
def atNonFinite (i : Nat) : Inspection Bool := do
  if options.allowNonFinite then
    match ← byte? size i with
    | none => return false
    | some b =>
      if b == 'I'.toUInt8 || b == 'N'.toUInt8 then return true
      else if b == Ascii.minus then return (← byte? size (i + 1)) == some 'I'.toUInt8
      else return false
  else return false

/-- Consumes a number if it is an integer of 64 bits; otherwise the cursor stays before it. -/
def readInteger (c : Cursor) : Inspection (IntegerToken × Cursor) := do
  let c ← overBlanks size c
  if ← atNonFinite size options c.position then return (.notInteger, c)
  else
    match ← numeral? size c.position with
    | none => return (.notInteger, ← failHere size .invalidNumber c)
    | some (n, stop) =>
      if n.isInteger then
        match n.toInt64? with
        | none => return (.tooLarge, c)
        | some i => return (.value i, c.moveTo stop)
      else return (.notInteger, c)

/-- The first of the words that stands at an index; a word is compared only if there are as many
bytes left. -/
def findWord (i : Nat) : List (Bytes × Binary64) → Inspection (Option (Bytes × Binary64))
  | [] => return none
  | (word, x) :: words => do
    if size - i < word.length then findWord i words
    else
      let front ← bytes word.length i
      if front == word then return some (word, x) else findWord i words

/-- The word for a number that is not finite at an index, if such words are allowed.  What is left
of the document from there on is asked for first, and the index must not lie behind the end for
that. -/
def nonFiniteWord? (i : Nat) : Inspection (Option (Bytes × Binary64)) :=
  if options.allowNonFinite then
    if size < i then outOfRange else findWord size i Reader.nonFiniteWords
  else return none

/-- Consumes a number as the nearest floating point number; its text is copied to be converted. -/
def readFloat (c : Cursor) : Inspection (Binary64 × Cursor) := do
  let c ← overBlanks size c
  match ← nonFiniteWord? size options c.position with
  | some (word, x) => return (x, c.moveTo (c.position + word.length))
  | none =>
    match ← numeral? size c.position with
    | none => return (Binary64.zero, ← failHere size .invalidNumber c)
    | some (n, stop) =>
      let _ ← bytes (stop - c.position) c.position
      if n.toBinary64.isFinite then return (n.toBinary64, c.moveTo stop)
      else return (Binary64.zero, ← failHere size .numberOutOfRange c)

/-- Checks that only blanks follow, if that is asked for. -/
def finish (c : Cursor) : Inspection (Bool × Cursor) := do
  let c ← overBlanks size c
  if options.requireEnd && c.position != size then
    return (false, ← failHere size .trailingCharacters c)
  else return (true, c)

end Operations

/-! ### The reader's operations are inspections -/

section Gives

variable (s : Session Reader)

/-- The line and column of an error are counted over the bytes in front of it, so they are looked at
again. -/
theorem gives_failAt (code : ErrorCode) (offset : Nat) :
    Gives s.state.source (failAt s.state.source.size code offset (.of s))
      (.of (Reader.failAt s code offset)) := by
  rw [failAt, Cursor.of_fault]
  cases hf : s.fault with
  | some e =>
      have hcursor : Cursor.of (Reader.failAt s code offset) = .of s := by
        rw [Reader.failAt, Session.fail, hf]
        exact congrArg (Cursor.mk _) hf.symm
      rw [hcursor]
      exact .done _
  | none =>
      have hbytes : s.state.source.ahead 0 (min offset s.state.source.size) =
          s.state.source.ahead 0 offset := by
        have hlen : (s.state.source.rest 0).length = s.state.source.size := Slice.length_rest _ 0
        rw [Slice.ahead_eq_take, Slice.ahead_eq_take, ← hlen, ← List.take_take,
          List.take_of_length_le (Nat.le_refl (s.state.source.rest 0).length)]
      have hcursor : Cursor.of (Reader.failAt s code offset) =
          { Cursor.of s with fault := some (Error.locate s.state.source code offset) } := by
        rw [Reader.failAt, Session.fail, hf]
        rfl
      rw [hcursor]
      refine (gives_bytes (by omega)).bind ?_
      rw [hbytes]
      exact .done _

theorem gives_failHere (code : ErrorCode) :
    Gives s.state.source (failHere s.state.source.size code (.of s))
      (.of (Reader.failHere s code)) :=
  gives_failAt s code _

/-- What stands at the cursor is looked at. -/
theorem gives_here : Gives s.state.source (byte? s.state.source.size s.state.position) s.state.here? :=
  gives_byte? s.state.source s.state.position

/-- Behind the blanks there is a reader of the same document. -/
theorem exists_overBlanks : ∃ s₁, Reader.skipBlank s = s₁ ∧ s₁.state.source = s.state.source ∧
    s₁.state.options = s.state.options ∧
    Gives s.state.source (overBlanks s.state.source.size (.of s)) (.of s₁) :=
  ⟨_, rfl, rfl, rfl, (gives_skipBlank s.state.source s.state.position).map _⟩

/-- What is announced is told by the byte at the cursor, and for a minus sign by the byte behind it.
-/
theorem gives_kindOf (b : UInt8) : Gives s.state.source
    (kindOf s.state.source.size s.state.options s.state.position b) (s.state.kindOf b) := by
  rw [kindOf, Reader.kindOf]
  refine .ite (fun _ => .done _) fun _ => .ite (fun _ => .done _) fun _ =>
    .ite (fun _ => .done _) fun _ => .ite (fun _ => .done _) fun _ =>
    .ite (fun _ => .done _) fun _ => .ite (fun _ => .done _) fun _ =>
    .ite (fun _ => ?_) fun _ => .ite (fun _ => .done _) fun _ =>
    .ite (fun _ => .done _) fun _ => .ite (fun _ => .done _) fun _ => .done _
  -- behind a minus sign one byte more is looked at
  refine (gives_byte? s.state.source (s.state.position + 1)).bind ?_
  cases s.state.source.get? (s.state.position + 1) with
  | none => exact .done _
  | some next => exact .done _

/-- The computation comes to the cursor behind what a reader has done, and to something that is in
the document what the reader hands out. -/
def Follows {α β : Type} (source : Slice) (view : α → β) (p : Inspection (α × Cursor))
    (r : β × Session Reader) : Prop :=
  ∃ a, Gives source p (a, .of r.2) ∧ r.1 = view a

namespace Follows

variable {α β γ : Type} {source : Slice} {view : α → β}

/-- What has been found needs no further look. -/
theorem done (a : α) (s' : Session Reader) :
    Follows source view (pure (a, .of s')) (view a, s') :=
  ⟨a, .done _, rfl⟩

/-- Something is found out before. -/
theorem behind {p : Inspection γ} {f : γ → Inspection (α × Cursor)} {c : γ} {r : β × Session Reader}
    (h : Gives source p c) (hf : Follows source view (f c) r) : Follows source view (p >>= f) r :=
  let ⟨a, ha, hview⟩ := hf
  ⟨a, h.bind ha, hview⟩

/-- One test for both. -/
theorem ite {c : Prop} [Decidable c] {p q : Inspection (α × Cursor)} {r r' : β × Session Reader}
    (h : c → Follows source view p r) (h' : ¬ c → Follows source view q r') :
    Follows source view (if c then p else q) (if c then r else r') := by
  split
  · next hc => exact h hc
  · next hc => exact h' hc

/-- Nothing but an error is found. -/
theorem failAt (s : Session Reader) (code : ErrorCode) (offset : Nat) (a : α) :
    Follows s.state.source view
      (do return (a, ← Inspection.failAt s.state.source.size code offset (.of s)))
      (view a, Reader.failAt s code offset) :=
  .behind (gives_failAt s code offset) (.done _ _)

theorem failHere (s : Session Reader) (code : ErrorCode) (a : α) :
    Follows s.state.source view
      (do return (a, ← Inspection.failHere s.state.source.size code (.of s)))
      (view a, Reader.failHere s code) :=
  .failAt s code _ a

end Follows

/-- Looking at what comes next. -/
theorem follows_peek :
    Follows s.state.source id (peek s.state.source.size s.state.options (.of s)) (Reader.peek s) := by
  obtain ⟨s₁, hs, hsource, hoptions, hblanks⟩ := exists_overBlanks s
  rw [peek, Reader.peek, hs]
  refine .behind hblanks ?_
  rw [← hsource, ← hoptions]
  refine .behind (gives_here s₁) ?_
  cases s₁.state.here? with
  | none => exact .failHere s₁ _ _
  | some b =>
      refine .behind (gives_kindOf s₁ b) ?_
      dsimp only
      cases s₁.state.kindOf b with
      | ok kind => exact .done _ _
      | error code => exact .failHere s₁ _ _

theorem follows_announce :
    Follows s.state.source id (announce s.state.source.size s.state.options (.of s))
      (Reader.announce s) := by
  obtain ⟨kind, hkind, rfl⟩ := follows_peek s
  exact .behind hkind (.done _ _)

/-- A word is compared only when there are as many bytes as it has. -/
theorem gives_readWord (word : Bytes) :
    Gives s.state.source (readWord s.state.source.size word (.of s))
      (.of (Reader.readWord word s)) := by
  rw [readWord, Reader.readWord, apply_ite Cursor.of, apply_ite Cursor.of]
  refine .ite (fun _ => gives_failHere s _)
    fun (hlong : ¬ s.state.source.size < s.state.position + word.length) => ?_
  have hlen : word.length ≤ s.state.source.size - s.state.position := by omega
  refine (gives_bytes hlen).bind ?_
  exact .ite (fun _ => .done _) fun _ => gives_failHere s _

theorem follows_readBool (kind : Kind) :
    Follows s.state.source id (readBool s.state.source.size kind (.of s))
      (Reader.readBool kind s) := by
  rw [readBool, Reader.readBool]
  exact .ite (fun _ => .behind (gives_readWord s _) (.done _ _))
    fun _ => .behind (gives_readWord s _) (.done _ _)

/-- A literal is handed out as a part of the document or as bytes of its own. -/
theorem follows_readString :
    Follows s.state.source (Found.token s.state.source) (readString s.state.source.size (.of s))
      (Reader.readString s) := by
  rw [readString, Reader.readString]
  refine .behind (gives_here s) (.ite (fun _ => ?_) fun _ => ?_)
  · obtain ⟨r, hliteral, hread⟩ := gives_literal s.state.source s.state.position
    refine .behind hliteral ?_
    rw [hread]
    rcases r with f | ⟨⟨i, n⟩ | bs, stop⟩
    · exact .failAt (Reader.moveTo s f.stop) _ _ _
    · exact .done (Found.part i n) (Reader.moveTo s stop)
    · exact .done (Found.loose bs) (Reader.moveTo s stop)
  · exact .failHere s _ _

/-- The bracket is looked at again, and then what comes behind it. -/
theorem follows_openArray :
    Follows s.state.source id (openArray s.state.source.size s.state.options (.of s))
      (Reader.openArray s) := by
  rw [openArray, Reader.openArray]
  refine .behind (gives_here s) (.ite (fun _ => ?_) fun _ => ?_)
  · obtain ⟨s₁, hs, (hsource : _ = s.state.source), (hoptions : _ = s.state.options),
      (hblanks : Gives s.state.source _ _)⟩ := exists_overBlanks (Reader.step s)
    rw [hs]
    refine .behind hblanks ?_
    rw [← hsource, ← hoptions]
    exact .behind (gives_here s₁)
      (.ite (fun _ => .done _ (Reader.step s₁)) fun _ => follows_announce s₁)
  · exact .failHere s _ _

/-- A comma, a closing bracket or something else. -/
theorem follows_nextItem :
    Follows s.state.source id (nextItem s.state.source.size s.state.options (.of s))
      (Reader.nextItem s) := by
  obtain ⟨s₁, hs, hsource, hoptions, hblanks⟩ := exists_overBlanks s
  rw [nextItem, Reader.nextItem, hs]
  refine .behind hblanks ?_
  rw [← hsource, ← hoptions]
  refine .behind (gives_here s₁) ?_
  cases s₁.state.here? with
  | none => exact .failHere s₁ _ _
  | some b =>
      exact .ite (fun _ => follows_announce (Reader.step s₁)) fun _ =>
        .ite (fun _ => .done _ (Reader.step s₁)) fun _ => .failAt (Reader.step s₁) _ _ _

/-- A key is a literal with a colon behind it. -/
theorem follows_readKey :
    Follows s.state.source (Option.map (Found.token s.state.source))
      (readKey s.state.source.size (.of s)) (Reader.readKey s) := by
  obtain ⟨s₁, hs, hsource, -, hblanks⟩ := exists_overBlanks s
  rw [readKey, Reader.readKey, hs]
  refine .behind hblanks ?_
  rw [← hsource]
  refine .behind (gives_here s₁) ?_
  cases s₁.state.here? with
  | none => exact .failHere s₁ _ _
  | some b =>
      refine .ite (fun _ => ?_) fun _ => .failHere s₁ _ _
      -- the key is read, and the colon is looked for in the same document
      obtain ⟨key, hkey, htoken⟩ := follows_readString s₁
      have hsame := (Reader.advances_readString s₁).reaches.source
      refine .behind hkey ?_
      generalize Reader.readString s₁ = read at htoken hsame
      obtain ⟨token, s₂⟩ := read
      dsimp only at htoken hsame
      refine .ite (fun _ => .done none s₂) fun _ => ?_
      obtain ⟨s₃, hs, hsource₃, -, hblanks⟩ := exists_overBlanks s₂
      rw [hsame] at hblanks hsource₃
      rw [hs]
      refine .behind hblanks ?_
      rw [← hsource₃]
      refine .behind (gives_here s₃) ?_
      dsimp only
      cases s₃.state.here? with
      | none => exact .failHere s₃ _ none
      | some b =>
          rw [htoken, ← hsource₃]
          exact .ite (fun _ => .done (some key) (Reader.step s₃)) fun _ => .failHere s₃ _ none

/-- The brace is looked at again, and then what comes behind it. -/
theorem follows_openObject :
    Follows s.state.source (Option.map (Found.token s.state.source))
      (openObject s.state.source.size (.of s)) (Reader.openObject s) := by
  rw [openObject, Reader.openObject]
  refine .behind (gives_here s) (.ite (fun _ => ?_) fun _ => ?_)
  · obtain ⟨s₁, hs, (hsource : _ = s.state.source), -, (hblanks : Gives s.state.source _ _)⟩ :=
      exists_overBlanks (Reader.step s)
    rw [hs]
    refine .behind hblanks ?_
    rw [← hsource]
    exact .behind (gives_here s₁)
      (.ite (fun _ => .done none (Reader.step s₁)) fun _ => follows_readKey s₁)
  · exact .failHere s _ none

/-- A comma, a closing brace or something else. -/
theorem follows_nextKey :
    Follows s.state.source (Option.map (Found.token s.state.source))
      (nextKey s.state.source.size (.of s)) (Reader.nextKey s) := by
  obtain ⟨s₁, hs, hsource, -, hblanks⟩ := exists_overBlanks s
  rw [nextKey, Reader.nextKey, hs]
  refine .behind hblanks ?_
  rw [← hsource]
  refine .behind (gives_here s₁) ?_
  cases s₁.state.here? with
  | none => exact .failHere s₁ _ none
  | some b =>
      exact .ite (fun _ => follows_readKey (Reader.step s₁)) fun _ =>
        .ite (fun _ => .done none (Reader.step s₁)) fun _ => .failAt (Reader.step s₁) _ _ none

/-- A word for a number that is not finite is looked for only where such words are allowed. -/
theorem gives_atNonFinite :
    Gives s.state.source (atNonFinite s.state.source.size s.state.options s.state.position)
      (s.state.options.allowNonFinite && s.state.atNonFinite) := by
  rw [atNonFinite, Reader.atNonFinite]
  cases s.state.options.allowNonFinite with
  | false => exact .done _
  | true =>
      refine (gives_here s).bind ?_
      cases s.state.here? with
      | none => exact .done _
      | some b =>
          dsimp only
          cases b == 'I'.toUInt8 || b == 'N'.toUInt8 with
          | true => exact .done _
          | false =>
              cases b == Ascii.minus with
              | true => exact (gives_byte? s.state.source (s.state.position + 1)).map _
              | false => exact .done _

/-- The bytes that may belong to a numeral are looked at, and one behind them. -/
theorem follows_readInteger (hin : s.state.position ≤ s.state.source.size) :
    Follows s.state.source id (readInteger s.state.source.size s.state.options (.of s))
      (Reader.readInteger s) := by
  have hinside := (Reader.advances_skipBlank s).inside hin
  obtain ⟨s₁, hs, hsource, hoptions, hblanks⟩ := exists_overBlanks s
  rw [hs] at hinside
  rw [readInteger, Reader.readInteger, hs]
  refine .behind hblanks ?_
  rw [← hsource, ← hoptions]
  refine .behind (gives_atNonFinite s₁) (.ite (fun _ => .done _ _) fun _ => ?_)
  refine .behind (gives_numeral? s₁.state.source hinside) ?_
  rw [Cursor.of_position]
  cases Reader.numeralAt s₁.state.source s₁.state.position with
  | none => exact .failHere s₁ _ _
  | some found =>
      refine .ite (fun _ => ?_) fun _ => .done _ _
      cases found.1.toInt64? with
      | none => exact .done _ _
      | some i => exact .done _ (Reader.moveTo s₁ found.2)

/-- Words are tried one after the other. -/
theorem gives_findWord (s : Slice) (i : Nat) (words : List (Bytes × Binary64)) :
    Gives s (findWord s.size i words) (words.find? fun (word, _) => s.startsAt i word) := by
  induction words with
  | nil => exact .done _
  | cons w words ih =>
      obtain ⟨word, x⟩ := w
      rw [findWord, List.find?_cons]
      dsimp only
      split
      · next hshort =>
          rw [startsAt_of_short hshort]
          exact ih
      · next hlong =>
          refine (gives_bytes (by omega)).bind ?_
          rw [Slice.startsAt]
          cases s.ahead i word.length == word with
          | true => exact .done _
          | false => exact ih

theorem gives_nonFiniteWord? (hin : s.state.position ≤ s.state.source.size) :
    Gives s.state.source (nonFiniteWord? s.state.source.size s.state.options s.state.position)
      (if s.state.options.allowNonFinite then
        Reader.nonFiniteWords.find? fun (word, _) => s.state.source.startsAt s.state.position word
      else none) := by
  rw [nonFiniteWord?]
  refine .ite (fun _ => ?_) fun _ => .done _
  rw [if_neg (by omega)]
  exact gives_findWord _ _ _

/-- A number, or one of the words for what is not finite. -/
theorem follows_readFloat (hin : s.state.position ≤ s.state.source.size) :
    Follows s.state.source id (readFloat s.state.source.size s.state.options (.of s))
      (Reader.readFloat s) := by
  have hinside := (Reader.advances_skipBlank s).inside hin
  obtain ⟨s₁, hs, hsource, hoptions, hblanks⟩ := exists_overBlanks s
  rw [hs] at hinside
  rw [readFloat, Reader.readFloat, hs]
  refine .behind hblanks ?_
  rw [← hsource, ← hoptions]
  refine .behind (gives_nonFiniteWord? s₁ hinside) ?_
  dsimp only [Cursor.of_position]
  generalize (if s₁.state.options.allowNonFinite = true then _ else none) = word?
  cases word? with
  | some found => exact .done found.2 (Reader.moveTo s₁ (s₁.state.position + found.1.length))
  | none =>
      refine .behind (gives_numeral? s₁.state.source hinside) ?_
      cases hn : Reader.numeralAt s₁.state.source s₁.state.position with
      | none => exact .failHere s₁ _ _
      | some found =>
          obtain ⟨n, stop⟩ := found
          have hstop : stop ≤ s₁.state.source.size := (Reader.advances_numeral hn).inside hinside
          refine .behind (gives_bytes (by omega)) ?_
          exact .ite (fun _ => .done n.toBinary64 (Reader.moveTo s₁ stop)) fun _ => .failHere s₁ _ _

/-- Blanks are skipped, and the end is told by the size. -/
theorem follows_finish :
    Follows s.state.source id (finish s.state.source.size s.state.options (.of s))
      (Reader.finish s) := by
  obtain ⟨s₁, hs, hsource, hoptions, hblanks⟩ := exists_overBlanks s
  rw [finish, Reader.finish, hs]
  refine .behind hblanks ?_
  rw [← hsource, ← hoptions]
  exact .ite (fun _ => .failHere s₁ _ _) fun _ => .done _ _

end Gives

end Inspection

end JsonTree
