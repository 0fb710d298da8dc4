import JsonTree.Binary64
import JsonTree.Error
import JsonTree.Text

/-!
# Token sources

A token source hands out a document piece by piece: `peek` tells what comes next without consuming
it, and the other operations consume what has been announced.  Every operation runs in a session,
which joins the state of the source to the record of the first error, and an operation that fails
says so by the record alone.

`TokenSource.Bounded` is the promise that a source comes to an end: some number never grows, and
shrinks whenever an array or object is opened or goes on.
-/

namespace JsonTree

/-- What comes next in a document. -/
inductive Kind where
  | null
  | true
  | false
  | number
  /-- A minus sign that has not been joined to a number. -/
  | minus
  | infinity
  | nan
  | string
  | array
  | object
  /-- Something that no value is made of. -/
  | other
  deriving DecidableEq

/-- What a caller may ask of reading. -/
structure ReadOptions where
  /-- How deep arrays and objects may be nested. -/
  maxDepth : Nat := 256
  /-- Only blanks may follow the value. -/
  requireEnd : Bool := true
  /-- Take `NaN`, `Infinity` and `-Infinity` for numbers. -/
  allowNonFinite : Bool := false
  deriving DecidableEq

/-- A string as a source hands it out. -/
structure StringToken where
  /-- The characters. -/
  characters : Characters
  /-- The source says that they are a stretch of its document. -/
  borrowed : Bool

namespace StringToken

/-- What stands for a string that could not be read. -/
def none : StringToken :=
  ⟨.loose [], Bool.false⟩

/-- The text of a token: a view when the source says so and the characters do lie in its document,
a copy otherwise. -/
def text (source : Slice) (t : StringToken) : Text :=
  if t.borrowed then Text.ofCharacters (some source) t.characters
  else Text.own t.characters.bytes

end StringToken

/-- A number read as an integer. -/
inductive IntegerToken where
  | value (n : Int64)
  /-- The number has a fraction or a power of ten, or is no finite number, or no number at all. -/
  | notInteger
  /-- The number is an integer that does not fit in 64 bits. -/
  | tooLarge
  deriving DecidableEq

/-- The state of a source and the first error so far. -/
structure Session (σ : Type) where
  state : σ
  fault : Fault := .none

namespace Session

variable {σ : Type}

/-- Records an error at an offset of the document. -/
def fail (s : Session σ) (source : Slice) (code : ErrorCode) (offset : Nat) : Session σ :=
  { s with fault := s.fault.record source code offset }

/-- An error has been recorded. -/
def failed (s : Session σ) : Bool :=
  s.fault.isSome

/-- What ends with an error on record is not what ends without one. -/
theorem ne_of_failed {α : Type} {a a' : α} {s s' : Session σ} (hf : s.failed = true)
    (hs : s'.failed = false) : (a, s) ≠ (a', s') := by
  intro h
  rw [(Prod.mk.inj h).2, hs] at hf
  cases hf

end Session

/-- The operations of a token source with states of type `σ`. -/
structure TokenSource (σ : Type) where
  /-- The document. -/
  document : σ → Slice
  /-- Where an error of the consumer is reported. -/
  position : σ → Nat
  /-- Tells what comes next. -/
  peek : Session σ → Kind × Session σ
  /-- Consumes an announced null. -/
  readNull : Session σ → Session σ
  /-- Consumes an announced truth value. -/
  readBool : Kind → Session σ → Bool × Session σ
  /-- Consumes an announced string. -/
  readString : Session σ → StringToken × Session σ
  /-- Opens an announced array and tells what its first item is; nothing when it is empty. -/
  openArray : Session σ → Option Kind × Session σ
  /-- Goes on to the next item of an array; nothing when the array ends. -/
  nextItem : Session σ → Option Kind × Session σ
  /-- Opens an announced object and consumes its first key; nothing when it is empty. -/
  openObject : Session σ → Option StringToken × Session σ
  /-- Goes on to the next key of an object; nothing when the object ends. -/
  nextKey : Session σ → Option StringToken × Session σ
  /-- Consumes an announced number if it is an integer that fits. -/
  readInteger : Session σ → IntegerToken × Session σ
  /-- Consumes an announced number as a floating point number. -/
  readFloat : Session σ → Binary64 × Session σ

namespace TokenSource

variable {σ : Type}

/-- No operation raises the measure, and going into or along an array or object lowers it. -/
structure Bounded (src : TokenSource σ) (measure : σ → Nat) : Prop where
  peek : ∀ s, measure (src.peek s).2.state ≤ measure s.state
  readNull : ∀ s, measure (src.readNull s).state ≤ measure s.state
  readBool : ∀ k s, measure (src.readBool k s).2.state ≤ measure s.state
  readString : ∀ s, measure (src.readString s).2.state ≤ measure s.state
  openArray : ∀ s, measure (src.openArray s).2.state ≤ measure s.state
  openArray_lt : ∀ s, (src.openArray s).1.isSome →
    measure (src.openArray s).2.state < measure s.state
  nextItem : ∀ s, measure (src.nextItem s).2.state ≤ measure s.state
  nextItem_lt : ∀ s, (src.nextItem s).1.isSome →
    measure (src.nextItem s).2.state < measure s.state
  openObject : ∀ s, measure (src.openObject s).2.state ≤ measure s.state
  openObject_lt : ∀ s, (src.openObject s).1.isSome →
    measure (src.openObject s).2.state < measure s.state
  nextKey : ∀ s, measure (src.nextKey s).2.state ≤ measure s.state
  nextKey_lt : ∀ s, (src.nextKey s).1.isSome →
    measure (src.nextKey s).2.state < measure s.state
  readInteger : ∀ s, measure (src.readInteger s).2.state ≤ measure s.state
  readFloat : ∀ s, measure (src.readFloat s).2.state ≤ measure s.state

end TokenSource

end JsonTree
