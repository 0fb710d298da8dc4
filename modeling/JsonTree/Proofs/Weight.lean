import JsonTree.Proofs.Association
import JsonTree.Proofs.Offence
import JsonTree.Proofs.Rereading

/-!
# Weight — what is read is no larger than its document

A value is weighed by the bytes that it needs in a document at least: its bytes and two quotes for
a string or key, one byte for any other value.  Every piece of a literal is written with no fewer
bytes than it means, every other token with at least one, and no two tokens share a byte; so a
value weighs no more than the text that means it.  A repeated key drops the value that was there
before, which only makes the whole lighter.

* `Pieces.length_bytes_le`: a literal means no more bytes than stand between its quotes.
* `Members.weight_ofList_le`: members weigh no more when they have been inserted.
* `Node.weight_value_le`: a value weighs no more than the text it is written with.
* `parsed_value_is_no_larger`: what a whole document means, and the census of it.
-/

namespace JsonTree

open Ascii

/-! ### Weighing a value -/

/-- The bytes of a string or key, and two quotes. -/
def Text.weight (t : Text) : Nat :=
  t.size + 2

namespace Value

mutual

/-- How many values are no strings, the value itself and those inside it. -/
def nonStrings : Value → Nat
  | string _ => 0
  | array items => itemsNonStrings items + 1
  | object members => membersNonStrings members + 1
  | _ => 1

/-- How many values in the items are no strings. -/
def itemsNonStrings : List Value → Nat
  | [] => 0
  | v :: rest => nonStrings v + itemsNonStrings rest

/-- How many values under the keys are no strings. -/
def membersNonStrings : Members → Nat
  | [] => 0
  | (_, v) :: rest => nonStrings v + membersNonStrings rest

end

/-- What the strings and keys weigh, and one for every other value. -/
def weight (v : Value) : Nat :=
  (v.texts.map Text.weight).sum + v.nonStrings

/-- What items weigh together. -/
def itemsWeight (items : List Value) : Nat :=
  (items.map weight).sum

end Value

/-- What members weigh together, each with its key. -/
def Members.weight (members : Members) : Nat :=
  (members.map fun m => m.1.weight + m.2.weight).sum

namespace Value

theorem weight_array (items : List Value) : (array items).weight = itemsWeight items + 1 := by
  have hitems : ((itemsTexts items).map Text.weight).sum + itemsNonStrings items =
      itemsWeight items := by
    induction items with
    | nil => rfl
    | cons v vs ih =>
        rw [itemsTexts, itemsNonStrings, itemsWeight, List.map_append, List.sum_append,
          List.map_cons, List.sum_cons, weight, ← itemsWeight, ← ih]
        omega
  rw [weight, texts, nonStrings, ← hitems]
  omega

theorem weight_object (members : Members) : (object members).weight = members.weight + 1 := by
  have hmembers : ((membersTexts members).map Text.weight).sum + membersNonStrings members =
      members.weight := by
    induction members with
    | nil => rfl
    | cons m ms ih =>
        rw [membersTexts, membersNonStrings, Members.weight, List.cons_append, List.map_cons,
          List.sum_cons, List.map_append, List.sum_append, List.map_cons, List.sum_cons, weight,
          ← Members.weight, ← ih]
        omega
  rw [weight, texts, nonStrings, ← hmembers]
  omega

/-- **The census of a value is part of its weight.** -/
theorem weight_eq_census (v : Value) :
    v.weight = v.census.totalBytes + 2 * v.census.total + v.nonStrings := by
  have hsum : ∀ ts : List Text,
      (ts.map Text.weight).sum = (ts.map Text.size).sum + 2 * ts.length := by
    intro ts
    induction ts with
    | nil => rfl
    | cons t ts ih =>
        rw [List.map_cons, List.sum_cons, List.map_cons, List.sum_cons, List.length_cons, ih,
          Text.weight]
        omega
  obtain ⟨htotal, hbytes⟩ := Census.foldl_count v.texts {}
  rw [← census_eq] at htotal hbytes
  rw [weight, hsum, htotal, hbytes]
  simp [Census.total, Census.totalBytes]

end Value

namespace Members

/-- **A member weighs no more in its place than at the end**: what was under the key is dropped, and
so is the key that is inserted. -/
theorem weight_insert_le (ms : Members) (key : Text) (v : Value) :
    (ms.insert key v).weight ≤ ms.weight + (key.weight + v.weight) := by
  induction ms with
  | nil => exact Nat.le_of_eq (Nat.add_comm _ _)
  | cons m ms ih =>
      rw [insert]
      split
      · simp only [weight, List.map_cons, List.sum_cons]
        omega
      · simp only [weight, List.map_cons, List.sum_cons] at ih ⊢
        omega

/-- **Members weigh no more when they have been inserted.** -/
theorem weight_ofList_le (given : Members) : weight (ofList given) ≤ weight given := by
  induction given using List.reverseRecOn with
  | nil => exact Nat.le_refl 0
  | append_singleton given m ih =>
      have hlast : weight (given ++ [m]) = weight given + (m.1.weight + m.2.weight) := by
        simp [weight]
      rw [ofList_concat, hlast]
      exact Nat.le_trans (weight_insert_le _ _ _) (Nat.add_le_add_right ih _)

end Members

/-! ### Literals -/

/-- A character is meant by no more bytes than it is written with: six for a code point of three at
most, twelve for one of four. -/
theorem Piece.length_bytes_le {p : Piece} (h : p.Legal) : p.bytes.length ≤ p.text.length := by
  rcases h with ⟨-, -, -, -⟩ | h
  · exact Nat.le_refl _
  · cases h with
    | letter _ => simp
    | unit hdigits hc =>
        have hle := hc.length_le
        simp only [List.length_cons, hdigits.length_eq]
        omega
    | pair hhigh _ hlow _ hc =>
        have hle := hc.length_le
        simp only [List.length_cons, List.length_append, hhigh.length_eq, hlow.length_eq]
        omega

theorem Pieces.length_bytes_le {ps : List Piece} (h : ∀ p ∈ ps, p.Legal) :
    (Pieces.bytes ps).length ≤ (Pieces.text ps).length := by
  induction ps with
  | nil => exact Nat.le_refl 0
  | cons p ps ih =>
      rw [bytes_cons, text_cons, List.length_append, List.length_append]
      exact Nat.add_le_add (Piece.length_bytes_le (h p List.mem_cons_self))
        (ih fun q hq => h q (List.mem_cons_of_mem _ hq))

/-- **A literal weighs no more than it is written with.** -/
theorem StringLiteral.weight_toText_le (l : StringLiteral) : l.toText.weight ≤ l.text.length := by
  have hle := Pieces.length_bytes_le l.legal
  simp only [toText, Text.weight, Text.size, bytes, text, List.length_cons, List.length_append,
    List.length_nil]
  omega

open Reader in
/-- **Reading a string never expands it**: from the opening quote to behind the closing one there
are at least two bytes more than are handed out. -/
theorem length_readString_le {s s' : Session Reader} {t : StringToken} (hs : s.failed = false)
    (h : readString s = (t, s')) (hs' : s'.failed = false) :
    s.state.position + (t.characters.bytes.length + 2) ≤ s'.state.position := by
  obtain ⟨l, back, hr, rfl, rfl⟩ := (readString_eq_iff hs).mp ⟨h, hs'⟩
  rw [bytes_stringToken hr]
  exact Nat.add_le_add_left l.weight_toText_le _

/-! ### What a text means -/

theorem NumberLiteral.weight_value (n : NumberLiteral) : n.value.weight = 1 := by
  rw [value]
  split <;> rfl

mutual

/-- **A value weighs no more than the text it is written with.** -/
theorem Node.weight_value_le : ∀ node : Node, node.value.weight ≤ node.text.length
  | .null => by decide
  | .boolean true => by decide
  | .boolean false => by decide
  | .number n => by
      rw [Node.value, n.weight_value]
      exact Node.length_text_pos (.number n)
  | .nonFinite word => Node.length_text_pos (.nonFinite word)
  | .string l => by
      have hle := l.weight_toText_le
      simpa [Node.value, Node.text, Value.weight, Value.texts, Value.nonStrings] using hle
  | .emptyArray w => Node.length_text_pos (.emptyArray w)
  | .array w first more => by
      have hfirst := Node.weight_value_le first
      have hmore := Items.weight_values_lt more
      rw [Node.value, Value.weight_array, Node.text]
      simp only [Value.itemsWeight, List.map_cons, List.sum_cons, List.length_cons,
        List.length_append] at hmore ⊢
      omega
  | .emptyObject w => Node.length_text_pos (.emptyObject w)
  | .object w key w₁ w₂ first more => by
      have hfirst := Node.weight_value_le first
      have hmore := Fields.weight_members_lt more
      have hkey := key.weight_toText_le
      have hlist := Members.weight_ofList_le ((key.toText, first.value) :: more.members)
      rw [Node.value, Value.weight_object, Node.text]
      simp only [Members.weight, List.map_cons, List.sum_cons, List.length_cons,
        List.length_append] at hmore hlist ⊢
      omega

/-- The same of items: the bytes left over are their commas and the closing bracket. -/
theorem Items.weight_values_lt :
    ∀ more : Items, Value.itemsWeight more.values < more.text.length
  | .close w => by simp [Items.values, Items.text, Value.itemsWeight]
  | .comma w w' item more => by
      have hitem := Node.weight_value_le item
      have hmore := Items.weight_values_lt more
      rw [Items.values, Items.text]
      simp only [Value.itemsWeight, List.map_cons, List.sum_cons, List.length_cons,
        List.length_append] at hmore ⊢
      omega

/-- The same of members. -/
theorem Fields.weight_members_lt :
    ∀ more : Fields, Members.weight more.members < more.text.length
  | .close w => by simp [Fields.members, Fields.text, Members.weight]
  | .comma w w' key w₁ w₂ item more => by
      have hitem := Node.weight_value_le item
      have hmore := Fields.weight_members_lt more
      have hkey := key.weight_toText_le
      rw [Fields.members, Fields.text]
      simp only [Members.weight, List.map_cons, List.sum_cons, List.length_cons,
        List.length_append] at hmore ⊢
      omega

end

/-! ### Whole documents -/

open Reader in
/-- **A value is no larger than the document it was read from.**  A string that is read has, with
its two quotes, no more bytes than the cursor has gone over.  And in a value that has been read,
the bytes of all strings and keys, two more for each of them, and one for each value that is no
string come to no more than the bytes of the document; nor do the bytes that the census counts,
with two for each text. -/
theorem parsed_value_is_no_larger :
    (∀ (s s' : Session Reader) (t : StringToken), s.failed = false → readString s = (t, s') →
      s'.failed = false →
      s.state.position + (t.characters.bytes.length + 2) ≤ s'.state.position) ∧
    ∀ (source : Slice) (options : ReadOptions) (v : Value), parse source options = ⟨v, none⟩ →
      (v.texts.map fun t => t.size + 2).sum + v.nonStrings ≤ source.size ∧
      v.census.borrowedBytes + v.census.ownedBytes +
        2 * (v.census.borrowed + v.census.owned) ≤ source.size := by
  refine ⟨fun s s' t hs h hs' => length_readString_le hs h hs', fun source options v h => ?_⟩
  obtain ⟨d, back, hsource, -, -, -, -, rfl⟩ := parse_eq_ok_iff.mp h
  have hle : d.value.weight ≤ source.size := by
    have hroot := Node.weight_value_le d.root
    rw [← source.length_bytes, hsource, Derivation.text, Derivation.value]
    simp only [List.length_append]
    omega
  refine ⟨hle, Nat.le_trans ?_ hle⟩
  rw [Value.weight_eq_census]
  exact Nat.le_add_right _ _

open Reader in
/-- A string whose one letter is given by its code; and a document with that string as a key, once
more without the code. -/
theorem parsed_value_is_no_larger_codedLetter :
    (∃ t s', readString (start (.ofBytes 0 (Bytes.ofString "\"\\u0061\"")) {}) = (t, s') ∧
      t.characters.bytes.length + 2 ≤ s'.state.position) ∧
    ∃ v, parse (.ofBytes 0 (Bytes.ofString "\x7b\"\\u0061\":[1],\"a\":\"b\"\x7d")) {} = ⟨v, none⟩ ∧
      (v.texts.map fun t => t.size + 2).sum + v.nonStrings ≤ 22 ∧
      v.census.borrowedBytes + v.census.ownedBytes +
        2 * (v.census.borrowed + v.census.owned) ≤ 22 := by
  have hread : readString (start (.ofBytes 0 (Bytes.ofString "\"\\u0061\"")) {}) =
      (⟨.loose [0x61], false⟩, moveTo (start (.ofBytes 0 (Bytes.ofString "\"\\u0061\"")) {}) 8) :=
    rfl
  have hparse : parse (.ofBytes 0 (Bytes.ofString "\x7b\"\\u0061\":[1],\"a\":\"b\"\x7d")) {} =
      ⟨.object [(.own [0x61], .string (.borrow [0x62]))], none⟩ := rfl
  have hstring : 0 + (1 + 2) ≤ 8 := parsed_value_is_no_larger.1 _ _ _ rfl hread rfl
  exact ⟨⟨_, _, hread, hstring⟩, _, hparse, parsed_value_is_no_larger.2 _ _ _ hparse⟩

end JsonTree
