import JsonTree.Token
import JsonTree.Value
import JsonTree.Proofs.Literal
import JsonTree.Proofs.Numeral

/-!
# The grammar — what a document is and what it means

A derivation is a document taken apart: which value stands where, and which blanks between the
tokens.  Its `text` are the bytes of the document, its `value` is what they mean, and its `depth` is
how deep arrays and objects are nested in it, those of a repeated key's earlier values included.
`Within` collects what is asked of a document beside its form: that integers fit in 64 bits, that
other numbers do not round to infinity, and that words for numbers occur only where allowed.

None of this mentions how a document is read.
-/

namespace JsonTree

open Ascii

/-- Blanks between tokens. -/
structure Blanks where
  text : Bytes
  blank : ∀ b ∈ text, isBlank b = true

/-- No blanks. -/
def Blanks.none : Blanks :=
  ⟨[], by simp⟩

/-- A number of the grammar. -/
structure NumberLiteral where
  numeral : Numeral
  proper : numeral.Proper

namespace NumberLiteral

/-- The number as it is written. -/
def text (n : NumberLiteral) : Bytes :=
  n.numeral.text

/-- The floating point number nearest to the number. -/
noncomputable def nearest (n : NumberLiteral) : Binary64 :=
  Binary64.nearest n.numeral.negative n.numeral.abs

/-- A number without fraction and power of ten means an integer, any other the nearest floating
point number. -/
noncomputable def value (n : NumberLiteral) : Value :=
  if n.numeral.isInteger then .integer (Int64.ofInt n.numeral.toInt) else .floating n.nearest

/-- The meaning exists: an integer fits in 64 bits, and any other number is nearer to some finite
number than to infinity. -/
def Within (n : NumberLiteral) : Prop :=
  if n.numeral.isInteger then Numeral.Fits n.numeral.toInt else n.nearest.isFinite = true

end NumberLiteral

/-- A word for a number that is not finite. -/
inductive NonFinite where
  | nan
  | infinity
  | negativeInfinity

namespace NonFinite

/-- The word. -/
def text : NonFinite → Bytes
  | nan => Bytes.ofString "NaN"
  | infinity => Bytes.ofString "Infinity"
  | negativeInfinity => Bytes.ofString "-Infinity"

/-- The number that the word stands for. -/
def number : NonFinite → Binary64
  | nan => Binary64.nan
  | infinity => Binary64.infinity
  | negativeInfinity => Binary64.negativeInfinity

end NonFinite

/-- The text of a string or key: a view of the document unless there are escapes in it. -/
def StringLiteral.toText (l : StringLiteral) : Text :=
  ⟨l.bytes, !l.hasEscape⟩

mutual

/-- A value taken apart. -/
inductive Node where
  | null
  | boolean (b : Bool)
  | number (n : NumberLiteral)
  | nonFinite (word : NonFinite)
  | string (l : StringLiteral)
  | emptyArray (w : Blanks)
  | array (w : Blanks) (first : Node) (more : Items)
  | emptyObject (w : Blanks)
  | object (w : Blanks) (key : StringLiteral) (w₁ w₂ : Blanks) (first : Node) (more : Fields)

/-- What follows an item of an array: its end, or another item. -/
inductive Items where
  | close (w : Blanks)
  | comma (w w' : Blanks) (item : Node) (more : Items)

/-- What follows a member of an object: its end, or another member. -/
inductive Fields where
  | close (w : Blanks)
  | comma (w w' : Blanks) (key : StringLiteral) (w₁ w₂ : Blanks) (item : Node) (more : Fields)

end

mutual

/-- The bytes of a value. -/
def Node.text : Node → Bytes
  | .null => Bytes.ofString "null"
  | .boolean true => Bytes.ofString "true"
  | .boolean false => Bytes.ofString "false"
  | .number n => n.text
  | .nonFinite word => word.text
  | .string l => l.text
  | .emptyArray w => openBracket :: (w.text ++ [closeBracket])
  | .array w first more => openBracket :: (w.text ++ (first.text ++ more.text))
  | .emptyObject w => openBrace :: (w.text ++ [closeBrace])
  | .object w key w₁ w₂ first more =>
    openBrace :: (w.text ++ (key.text ++ (w₁.text ++ colon :: (w₂.text ++
      (first.text ++ more.text)))))

/-- The bytes up to the end of the array. -/
def Items.text : Items → Bytes
  | .close w => w.text ++ [closeBracket]
  | .comma w w' item more => w.text ++ comma :: (w'.text ++ (item.text ++ more.text))

/-- The bytes up to the end of the object. -/
def Fields.text : Fields → Bytes
  | .close w => w.text ++ [closeBrace]
  | .comma w w' key w₁ w₂ item more =>
    w.text ++ comma :: (w'.text ++ (key.text ++ (w₁.text ++ colon :: (w₂.text ++
      (item.text ++ more.text)))))

end

mutual

/-- What a value means.  The members of an object are given one after the other, so a repeated key
takes the last value and keeps the place and the text of the first. -/
noncomputable def Node.value : Node → Value
  | .null => .null
  | .boolean b => .boolean b
  | .number n => n.value
  | .nonFinite word => .floating word.number
  | .string l => .string l.toText
  | .emptyArray _ => .array []
  | .array _ first more => .array (first.value :: more.values)
  | .emptyObject _ => .object []
  | .object _ key _ _ first more =>
    .object (Members.ofList ((key.toText, first.value) :: more.members))

/-- What the items mean. -/
noncomputable def Items.values : Items → List Value
  | .close _ => []
  | .comma _ _ item more => item.value :: more.values

/-- What the members mean. -/
noncomputable def Fields.members : Fields → List Member
  | .close _ => []
  | .comma _ _ key _ _ item more => (key.toText, item.value) :: more.members

end

mutual

/-- How deep arrays and objects are nested in a value. -/
def Node.depth : Node → Nat
  | .emptyArray _ | .emptyObject _ => 1
  | .array _ first more => max first.depth more.depth + 1
  | .object _ _ _ _ first more => max first.depth more.depth + 1
  | _ => 0

/-- How deep they are nested in the items. -/
def Items.depth : Items → Nat
  | .close _ => 0
  | .comma _ _ item more => max item.depth more.depth

/-- How deep they are nested in the members. -/
def Fields.depth : Fields → Nat
  | .close _ => 0
  | .comma _ _ _ _ _ item more => max item.depth more.depth

end

mutual

/-- Numbers have a meaning, and words for numbers are allowed. -/
def Node.Within (allowNonFinite : Bool) : Node → Prop
  | .number n => n.Within
  | .nonFinite _ => allowNonFinite = true
  | .array _ first more => first.Within allowNonFinite ∧ more.Within allowNonFinite
  | .object _ _ _ _ first more => first.Within allowNonFinite ∧ more.Within allowNonFinite
  | _ => True

/-- The same of the items. -/
def Items.Within (allowNonFinite : Bool) : Items → Prop
  | .close _ => True
  | .comma _ _ item more => item.Within allowNonFinite ∧ more.Within allowNonFinite

/-- The same of the members. -/
def Fields.Within (allowNonFinite : Bool) : Fields → Prop
  | .close _ => True
  | .comma _ _ _ _ _ item more => item.Within allowNonFinite ∧ more.Within allowNonFinite

end

/-- A document taken apart: a value with blanks around it. -/
structure Derivation where
  before : Blanks
  root : Node
  after : Blanks

namespace Derivation

/-- The bytes of the document. -/
def text (d : Derivation) : Bytes :=
  d.before.text ++ (d.root.text ++ d.after.text)

/-- What the document means. -/
noncomputable def value (d : Derivation) : Value :=
  d.root.value

/-- The document keeps to what is asked for. -/
structure Within (d : Derivation) (options : ReadOptions) : Prop where
  numbers : d.root.Within options.allowNonFinite
  depth : d.root.depth ≤ options.maxDepth

end Derivation

end JsonTree
