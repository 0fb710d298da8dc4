import JsonTree.Token.Script
import JsonTree.Proofs.Association
import JsonTree.Proofs.Builder

/-!
# Replay — a source that hands out a tree has the tree built

An outline is a document as a tree of tokens, before anything has been made of it: a key may be
repeated, and a string is what a source would hand out for it.  Its tokens in document order
(`Outline.tokens`) are operations of a source with their answers, and a source replays them when one
operation after the other answers as the token says (`Replays`).  What the tree means is said
without the builder (`Outline.value`): an object's keys stand once each, where and as they first
come, with the value that comes last, and a text is a view exactly when its token is marked as
borrowed and lies in the document.

* `hands_of_replays`: a source that replays an outline's tokens hands out its value.
* `build_replays`: from any such source the value is built, and the source is left where the replay
  ends; a script in particular has lost the tree's entries and no others.
-/

namespace JsonTree

/-! ### Outlines -/

/-- How a source may announce a floating point number. -/
inductive FloatForm where
  | number
  | infinity
  | nan

/-- What is announced. -/
def FloatForm.kind : FloatForm → Kind
  | number => .number
  | infinity => .infinity
  | nan => .nan

/-- A document as a tree of tokens. -/
inductive Outline where
  | null
  | boolean (b : Bool)
  | integer (n : Int64)
  | floating (form : FloatForm) (x : Binary64)
  | string (t : StringToken)
  | array (items : List Outline)
  | object (members : List (StringToken × Outline))

/-- The kind of a truth value. -/
def Kind.ofBool : Bool → Kind
  | Bool.true => .true
  | Bool.false => .false

/-- The characters lie in the document: in its buffer, and neither before nor behind it. -/
def Characters.Inside (document : Slice) : Characters → Prop
  | .slice s => s.buffer = document.buffer ∧ document.start ≤ s.start ∧
      s.start + s.size ≤ document.start + document.size
  | .loose _ => False

instance (document : Slice) : DecidablePred (Characters.Inside document)
  | .slice s => inferInstanceAs (Decidable (s.buffer = document.buffer ∧ _))
  | .loose _ => inferInstanceAs (Decidable False)

/-- The text of a token: the same bytes, a view exactly when the token is marked as borrowed and
lies in the document. -/
def StringToken.kept (document : Slice) (t : StringToken) : Text :=
  ⟨t.characters.bytes, t.borrowed ∧ t.characters.Inside document⟩

/-- The test for characters of the document says whether they lie inside it. -/
theorem Characters.within_eq_inside (document : Slice) (characters : Characters) :
    characters.within document = decide (characters.Inside document) := by
  rw [Bool.eq_iff_iff, decide_eq_true_iff]
  cases characters with
  | slice s => simp [within, Inside, Slice.covers, and_assoc, @eq_comm _ document.buffer]
  | loose bs => simp [within, Inside]

/-- The text that the builder makes of a token is the one that is to be kept. -/
theorem StringToken.text_eq_kept (document : Slice) (t : StringToken) :
    t.text document = t.kept document := by
  rw [StringToken.text, StringToken.kept, Bool.decide_and, ← Characters.within_eq_inside]
  cases t.borrowed <;> rfl

namespace Outline

/-- What is announced. -/
def kind : Outline → Kind
  | null => .null
  | boolean b => .ofBool b
  | integer _ => .number
  | floating form _ => form.kind
  | string _ => .string
  | array _ => .array
  | object _ => .object

mutual

/-- The value that is meant. -/
def value (document : Slice) : Outline → Value
  | null => .null
  | boolean b => .boolean b
  | integer n => .integer n
  | floating _ x => .floating x
  | string t => .string (t.kept document)
  | array items => .array (values document items)
  | object members => .object (Members.collapse (memberValues document members))

/-- The values of items. -/
def values (document : Slice) : List Outline → List Value
  | [] => []
  | v :: rest => value document v :: values document rest

/-- The members as they are given, with the values that are meant. -/
def memberValues (document : Slice) : List (StringToken × Outline) → List Member
  | [] => []
  | (key, v) :: rest => (key.kept document, value document v) :: memberValues document rest

end

mutual

/-- How deep arrays and objects are nested. -/
def depth : Outline → Nat
  | array items => itemsDepth items + 1
  | object members => membersDepth members + 1
  | _ => 0

/-- How deep they are nested in the items. -/
def itemsDepth : List Outline → Nat
  | [] => 0
  | v :: rest => max (depth v) (itemsDepth rest)

/-- How deep they are nested in the members, those of a repeated key's earlier values included. -/
def membersDepth : List (StringToken × Outline) → Nat
  | [] => 0
  | (_, v) :: rest => max (depth v) (membersDepth rest)

end

end Outline

/-! ### The tokens of an outline -/

/-- An operation of a source together with what it hands out. -/
inductive Token where
  | peek (kind : Kind)
  | null
  | boolean (b : Bool)
  | string (t : StringToken)
  | openArray (first : Option Kind)
  | nextItem (next : Option Kind)
  | openObject (first : Option StringToken)
  | nextKey (next : Option StringToken)
  | integer (n : IntegerToken)
  | float (x : Binary64)

namespace Outline

mutual

/-- What is handed out, in document order, once the outline has been announced. -/
def tokens : Outline → List Token
  | null => [.null]
  | boolean b => [.boolean b]
  | integer n => [.integer (.value n)]
  | floating .number x => [.integer .notInteger, .float x]
  | floating _ x => [.float x]
  | string t => [.string t]
  | array items => .openArray (items.head?.map kind) :: itemTokens items
  | object members => .openObject (members.head?.map (·.1)) :: memberTokens members

/-- What is handed out once the first of the items has been announced. -/
def itemTokens : List Outline → List Token
  | [] => []
  | v :: rest => tokens v ++ .nextItem (rest.head?.map kind) :: itemTokens rest

/-- What is handed out once the first of the keys has been. -/
def memberTokens : List (StringToken × Outline) → List Token
  | [] => []
  | (_, v) :: rest =>
    .peek (kind v) :: (tokens v ++ .nextKey (rest.head?.map (·.1)) :: memberTokens rest)

end

/-- All that is handed out; the announcement comes first unless it has been made already. -/
def handed (v : Outline) : (announced : Bool) → List Token
  | true => v.tokens
  | false => .peek v.kind :: v.tokens

/-- The announcement that has been made. -/
def announcement (v : Outline) : (announced : Bool) → Option Kind
  | true => some v.kind
  | false => none

end Outline

/-- The operation answers as the token says. -/
def Token.AnsweredBy {σ : Type} (src : TokenSource σ) : Token → Session σ → Session σ → Prop
  | peek kind, s, s' => src.peek s = (kind, s')
  | null, s, s' => src.readNull s = s'
  | boolean b, s, s' => src.readBool (.ofBool b) s = (b, s')
  | string t, s, s' => src.readString s = (t, s')
  | openArray first, s, s' => src.openArray s = (first, s')
  | nextItem next, s, s' => src.nextItem s = (next, s')
  | openObject first, s, s' => src.openObject s = (first, s')
  | nextKey next, s, s' => src.nextKey s = (next, s')
  | integer n, s, s' => src.readInteger s = (n, s')
  | float x, s, s' => src.readFloat s = (x, s')

/-- A source replays tokens from one session to another: one operation after the other answers as
the token says and records no error, and all the while the source reads the same document. -/
inductive Replays {σ : Type} (src : TokenSource σ) (document : Slice) :
    List Token → Session σ → Session σ → Prop where
  | nil (s : Session σ) : Replays src document [] s s
  | cons {t : Token} {ts : List Token} {s s₁ s' : Session σ} : t.AnsweredBy src s s₁ →
      s₁.failed = false → src.document s₁.state = document → Replays src document ts s₁ s' →
      Replays src document (t :: ts) s s'

namespace Replays

variable {σ : Type} {src : TokenSource σ} {document : Slice} {s s' : Session σ}

/-- A replay of several tokens begins with an answer by the first. -/
theorem cons_inv {t : Token} {ts : List Token} (h : Replays src document (t :: ts) s s') :
    ∃ s₁, t.AnsweredBy src s s₁ ∧ s₁.failed = false ∧ src.document s₁.state = document ∧
      Replays src document ts s₁ s' := by
  cases h with
  | cons ht hs hd h => exact ⟨_, ht, hs, hd, h⟩

/-- A replay of nothing leaves the source as it is. -/
theorem nil_inv (h : Replays src document [] s s') : s' = s := by
  cases h with
  | nil => rfl

/-- A replay of two lists is one of the first and then one of the second. -/
theorem append_inv {ts us : List Token} (h : Replays src document (ts ++ us) s s') :
    ∃ s₁, Replays src document ts s s₁ ∧ Replays src document us s₁ s' := by
  induction ts generalizing s with
  | nil => exact ⟨s, .nil s, h⟩
  | cons t ts ih =>
      obtain ⟨s₁, ht, hs, hd, h⟩ := cons_inv h
      obtain ⟨s₂, hts, hus⟩ := ih h
      exact ⟨s₂, .cons ht hs hd hts, hus⟩

end Replays

/-! ### What is replayed is handed out -/

section HandsOut

open Build

variable {σ : Type} {src : TokenSource σ} {document : Slice}

mutual

/-- **A source that replays an outline's tokens hands out its value.** -/
theorem hands_of_replays : ∀ {v : Outline} {s s' : Session σ},
    Replays src document v.tokens s s' →
      Hands src (.value v.kind (v.value document)) v.depth s s'
  | .null, s, s', h => by
      obtain ⟨s₁, hr, hs, -, h⟩ := h.cons_inv
      obtain rfl := h.nil_inv
      exact .null hr hs
  | .boolean b, s, s', h => by
      obtain ⟨s₁, hr, hs, -, h⟩ := h.cons_inv
      obtain rfl := h.nil_inv
      exact .boolean (by cases b <;> decide) hr hs
  | .integer n, s, s', h => by
      obtain ⟨s₁, hr, hs, -, h⟩ := h.cons_inv
      obtain rfl := h.nil_inv
      exact .integer hr hs
  | .floating .number x, s, s', h => by
      obtain ⟨s₁, hi, hs₁, -, h⟩ := h.cons_inv
      obtain ⟨s₂, hr, hs₂, -, h⟩ := h.cons_inv
      obtain rfl := h.nil_inv
      exact .floating hi hs₁ hr hs₂
  | .floating .infinity x, s, s', h => by
      obtain ⟨s₁, hr, hs, -, h⟩ := h.cons_inv
      obtain rfl := h.nil_inv
      exact .nonFinite (.inl rfl) hr hs
  | .floating .nan x, s, s', h => by
      obtain ⟨s₁, hr, hs, -, h⟩ := h.cons_inv
      obtain rfl := h.nil_inv
      exact .nonFinite (.inr rfl) hr hs
  | .string t, s, s', h => by
      obtain ⟨s₁, hr, hs, hd, h⟩ := h.cons_inv
      obtain rfl := h.nil_inv
      have hands : Hands src _ 0 s s' := .string hr hs
      rw [hd, StringToken.text_eq_kept] at hands
      exact hands
  | .array items, s, s', h => by
      obtain ⟨s₁, hopen, hs, -, h⟩ := h.cons_inv
      exact .array hopen hs (hands_of_replays_items h)
  | .object members, s, s', h => by
      obtain ⟨s₁, hopen, hs, hd, h⟩ := h.cons_inv
      have hands : Hands src _ _ s s' := .object hopen hs (hands_of_replays_members hd h)
      rw [Members.ofList_eq_collapse] at hands
      exact hands

/-- Replaying its items' tokens hands out the items of an array. -/
theorem hands_of_replays_items : ∀ {items : List Outline} {s s' : Session σ},
    Replays src document (Outline.itemTokens items) s s' →
      Hands src (.items (items.head?.map Outline.kind) (Outline.values document items))
        (Outline.itemsDepth items) s s'
  | [], s, s', h => by
      obtain rfl := h.nil_inv
      exact .itemsEnd s'
  | v :: rest, s, s', h => by
      obtain ⟨s₁, hv, h⟩ := h.append_inv
      obtain ⟨s₂, hnext, hs, -, h⟩ := h.cons_inv
      exact .item (hands_of_replays hv) hnext hs (hands_of_replays_items h)

/-- Replaying its members' tokens hands out the members of an object. -/
theorem hands_of_replays_members : ∀ {members : List (StringToken × Outline)} {s s' : Session σ},
    src.document s.state = document →
    Replays src document (Outline.memberTokens members) s s' →
      Hands src (.members (members.head?.map (·.1)) (Outline.memberValues document members))
        (Outline.membersDepth members) s s'
  | [], s, s', _, h => by
      obtain rfl := h.nil_inv
      exact .membersEnd s'
  | (key, v) :: rest, s, s', hd, h => by
      obtain ⟨s₁, hpeek, hs₁, -, h⟩ := h.cons_inv
      obtain ⟨s₂, hv, h⟩ := h.append_inv
      obtain ⟨s₃, hnext, hs₃, hd₃, h⟩ := h.cons_inv
      have hands : Hands src (.members (some key) _) _ s s' :=
        .member hpeek hs₁ (hands_of_replays hv) hnext hs₃ (hands_of_replays_members hd₃ h)
      rw [hd, StringToken.text_eq_kept] at hands
      exact hands

end

/-- The same of a whole document, announced or not. -/
theorem handsOut_of_replays {v : Outline} {announced : Bool} {s s' : Session σ}
    (h : Replays src document (v.handed announced) s s') :
    HandsOut src (v.announcement announced) (v.value document) v.depth s s' := by
  cases announced with
  | true => exact hands_of_replays h
  | false =>
      obtain ⟨s₁, hpeek, hs₁, -, h⟩ := h.cons_inv
      exact ⟨v.kind, s₁, hpeek, hs₁, hands_of_replays h⟩

end HandsOut

/-! ### Scripts -/

namespace Token

/-- What is taken from a script's queue of kinds. -/
def kind? : Token → Option (Option Kind)
  | peek kind => some (some kind)
  | openArray next | nextItem next => some next
  | _ => none

/-- What is taken from the queue of strings. -/
def string? : Token → Option (Option StringToken)
  | string t => some (some t)
  | openObject next | nextKey next => some next
  | _ => none

/-- What is taken from the queue of integers. -/
def integer? : Token → Option IntegerToken
  | integer n => some n
  | _ => none

/-- What is taken from the queue of floating point numbers. -/
def float? : Token → Option Binary64
  | float x => some x
  | _ => none

/-- What is taken from the queue of literals. -/
def literal? : Token → Option Unit
  | null | boolean _ => some ()
  | _ => none

end Token

namespace ScriptQueue

variable {α : Type}

/-- The queue with answers put before its entries. -/
def before (q : ScriptQueue α) (answers : List α) : ScriptQueue α :=
  { q with entries := answers.map .answer ++ q.entries }

/-- The queue when answers put before its entries have been taken. -/
def behind (q : ScriptQueue α) (answers : List α) : ScriptQueue α :=
  { q with taken := q.taken + answers.length }

theorem behind_behind (q : ScriptQueue α) (as bs : List α) :
    (q.behind as).behind bs = q.behind (as ++ bs) := by
  simp [behind, Nat.add_assoc]

end ScriptQueue

namespace Script

/-- Changes every queue by the answers that the tokens take from it. -/
def advance (change : ∀ {α : Type}, ScriptQueue α → List α → ScriptQueue α) (ts : List Token)
    (script : Script) : Script where
  document := script.document
  kinds := change script.kinds (ts.filterMap Token.kind?)
  strings := change script.strings (ts.filterMap Token.string?)
  integers := change script.integers (ts.filterMap Token.integer?)
  floats := change script.floats (ts.filterMap Token.float?)
  literals := script.literals.map fun q => change q (ts.filterMap Token.literal?)

/-- The script with the tokens put before what it has laid down. -/
def before (script : Script) (ts : List Token) : Script :=
  script.advance .before ts

/-- The script when the tokens put before it have been taken: every queue has all its entries left,
and has counted those of the tokens. -/
def behind (script : Script) (ts : List Token) : Script :=
  script.advance .behind ts

theorem before_nil (script : Script) : script.before [] = script := by
  rcases script with ⟨_, _, _, _, _, _ | _⟩ <;> rfl

theorem behind_nil (script : Script) : script.behind [] = script := by
  rcases script with ⟨_, _, _, _, _, _ | _⟩ <;> rfl

/-- Taking tokens and then others is taking them all. -/
theorem behind_behind (script : Script) (ts us : List Token) :
    (script.behind ts).behind us = script.behind (ts ++ us) := by
  simp [behind, advance, ScriptQueue.behind_behind, Function.comp_def]

/-- A script answers with the first of the tokens put before it. -/
theorem answeredBy_before (script : Script) (t : Token) (ts : List Token) :
    t.AnsweredBy tokens { state := script.before (t :: ts) }
      { state := (script.behind [t]).before ts } := by
  cases t with
  | null => rcases script with ⟨_, _, _, _, _, _ | _⟩ <;> rfl
  | boolean b => cases b <;> rcases script with ⟨_, _, _, _, _, _ | _⟩ <;> rfl
  | peek _ | string _ | openArray _ | nextItem _ | openObject _ | nextKey _ | integer _ | float _ =>
      rcases script with ⟨_, _, _, _, _, _ | _⟩ <;> rfl

/-- **A script replays the tokens put before it**, and takes nothing else. -/
theorem replays_before (script : Script) (ts : List Token) :
    Replays tokens script.document ts { state := script.before ts }
      { state := script.behind ts } := by
  -- on the tokens; each is taken from the script that the ones before it have been taken from
  induction ts generalizing script with
  | nil =>
      rw [before_nil, behind_nil]
      exact .nil _
  | cons t ts ih =>
      have rest := ih (script.behind [t])
      rw [behind_behind] at rest
      exact .cons (answeredBy_before script t ts) rfl rfl rest

end Script

/-! ### Whole documents -/

/-- **From a source that replays an outline its value is built**, and the source is left where the
replay ends.  A script that has the tokens before its own entries has lost them and nothing else. -/
theorem build_replays (limit : Nat) (v : Outline) (hdepth : v.depth ≤ limit) :
    (∀ {σ : Type} (src : TokenSource σ) (document : Slice) (announced : Bool) (s s' : Session σ),
      Replays src document (v.handed announced) s s' →
        s'.failed = false ∧
        (∃ n, ∀ steps, n ≤ steps →
          Build.whole? src limit steps (v.announcement announced) s =
            some (v.value document, s')) ∧
        ∀ steps r, Build.whole? src limit steps (v.announcement announced) s = some r →
          r = (v.value document, s')) ∧
    ∀ script : Script,
      Script.bounded.build limit { state := script.before (v.handed false) } =
        (v.value script.document, { state := script.behind (v.handed false) }) ∧
      Script.bounded.buildAnnounced limit v.kind { state := script.before (v.handed true) } =
        (v.value script.document, { state := script.behind (v.handed true) }) := by
  refine ⟨fun src document announced s s' h => ?_, fun script => ⟨?_, ?_⟩⟩
  · have hands := handsOut_of_replays h
    exact ⟨hands.not_failed, hands.settles hdepth,
      fun steps r hr => Build.whole?_of_handsOut hands hdepth hr⟩
  · have hands : Build.HandsOut Script.tokens (v.announcement false) _ _ _ _ :=
      handsOut_of_replays (script.replays_before (v.handed false))
    exact Build.whole?_of_handsOut hands hdepth (Option.some_get _).symm
  · have hands : Build.HandsOut Script.tokens (v.announcement true) _ _ _ _ :=
      handsOut_of_replays (script.replays_before (v.handed true))
    exact Build.whole?_of_handsOut hands hdepth (Option.some_get _).symm

/-- A script over the document `ab` that has laid down one answer more than is asked for. -/
def letters : Script where
  document := Slice.ofBytes 0 [0x61, 0x62]
  kinds := { entries := [.answer (some .other)] }

/-- An object with a repeated key, first as a part of the document and then as a part of another
buffer, and with a text that lies in the document but is not marked as borrowed. -/
def repeatedKey : Outline :=
  .object [(⟨.slice (letters.document.sub 0 1), true⟩, .integer 1),
    (⟨.slice (letters.document.sub 1 1), true⟩, .array [.null, .floating .nan Binary64.zero]),
    (⟨.slice (Slice.ofBytes 1 [0x61]), true⟩, .string ⟨.slice (letters.document.sub 1 1), false⟩)]

theorem build_replays_repeatedKey :
    repeatedKey.depth ≤ 2 ∧
      repeatedKey.value letters.document = .object [(.borrow [0x61], .string (.own [0x62])),
        (.borrow [0x62], .array [.null, .floating Binary64.zero])] ∧
      (∃ n, ∀ steps, n ≤ steps →
        Build.whole? Script.tokens 2 steps none
            { state := letters.before (repeatedKey.handed false) } =
          some (repeatedKey.value letters.document,
            { state := letters.behind (repeatedKey.handed false) })) ∧
      Script.bounded.build 2 { state := letters.before (repeatedKey.handed false) } =
        (repeatedKey.value letters.document,
          { state := letters.behind (repeatedKey.handed false) }) :=
  ⟨by decide, by rfl,
    ((build_replays 2 repeatedKey (by decide)).1 Script.tokens letters.document false _ _
      (letters.replays_before _)).2.1,
    ((build_replays 2 repeatedKey (by decide)).2 letters).1⟩

end JsonTree
