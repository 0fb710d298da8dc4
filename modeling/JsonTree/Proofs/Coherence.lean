import JsonTree.Proofs.Completion.Reader
import JsonTree.Proofs.Flaw
import JsonTree.Proofs.Limit

/-!
# Coherence — tokens are consumed where they have been announced

An operation of a reader that consumes a token looks again at what it consumes, and there are causes
to tell of a token that is not the announced one.  The builder over a fresh reader never comes to
them: each consuming operation is called where a token of its kind begins (`Build.Call.Coherent`),
as nothing moves the cursor between the announcement and the call.

That is kept together with what the reader has gone over: whole lexemes, as long as no error is on
record (`Between`), and then an error that is told of a lexeme to come (`Explained`).

* `sound_run`: a coherent call goes from lexeme to lexeme, or records an error that is explained.
* `lockstep_steady`: the builder over the logged reader makes coherent calls only.
* `tokens_are_consumed_where_announced`: a whole run, with its log and its error.
-/

namespace JsonTree

open Ascii Bytes

/-! ### Lexemes -/

/-- The bytes that are tokens of their own. -/
def markBytes : List UInt8 :=
  [openBracket, closeBracket, openBrace, closeBrace, comma, colon]

/-- A token, or blanks. -/
inductive Lexeme (allowNonFinite : Bool) : Bytes → Prop where
  | blanks (w : Blanks) : Lexeme allowNonFinite w.text
  | mark {b : UInt8} : b ∈ markBytes → Lexeme allowNonFinite [b]
  | word {word : Bytes} : word ∈ plainWords → Lexeme allowNonFinite word
  | string (l : StringLiteral) : Lexeme allowNonFinite l.text
  | number (n : NumberLiteral) : Lexeme allowNonFinite n.text
  | nonFinite (word : NonFinite) : allowNonFinite = true → Lexeme allowNonFinite word.text

/-- Lexemes one after the other. -/
inductive Lexemes (allowNonFinite : Bool) : Bytes → Prop where
  | none : Lexemes allowNonFinite []
  | append {front text : Bytes} : Lexemes allowNonFinite front → Lexeme allowNonFinite text →
      Lexemes allowNonFinite (front ++ text)

/-- Inside a string literal, at the offset, stands a control byte: there are lexemes, a quote, and
characters of a literal before it. -/
def ControlAt (allowNonFinite : Bool) (document : Bytes) (offset : Nat) : Prop :=
  ∃ front ps b back, document = front ++ quote :: (Pieces.text ps ++ b :: back) ∧
    Lexemes allowNonFinite front ∧ (∀ p ∈ ps, p.Legal) ∧ b ≤ 0x1F ∧
    offset = front.length + 1 + (Pieces.text ps).length

/-- Behind lexemes, at the offset, stands a byte that no value begins with, or the first letter of a
word that does not stand there. -/
def NoValueAt (allowNonFinite : Bool) (document : Bytes) (offset : Nat) : Prop :=
  ∃ front b back, document = front ++ b :: back ∧ Lexemes allowNonFinite front ∧
    offset = front.length ∧
    ((∀ kind bs, ¬ Reader.Announces allowNonFinite kind (b :: bs)) ∨
      ∃ word ∈ plainWords, word.head? = some b ∧ ¬ word <+: b :: back)

/-- The error is not one of a source that breaks its contract; and a string or value is told to be
wrong only where it is. -/
structure Explained (document : Bytes) (options : ReadOptions) (e : Error) : Prop where
  resolved : e.code ≠ .unresolvedMinus
  supported : e.code ≠ .unsupportedToken
  string : e.code = .invalidString → ControlAt options.allowNonFinite document e.offset
  value : e.code = .invalidValue → NoValueAt options.allowNonFinite document e.offset

/-- The cause may be told of a token that is not the announced one. -/
def ErrorCode.ofWrongToken : ErrorCode → Bool
  | unresolvedMinus | unsupportedToken | invalidString | invalidValue => true
  | _ => false

/-- An error that has nothing to do with the kind of a token needs no explanation. -/
theorem Explained.of_code {document : Bytes} {options : ReadOptions} {e : Error}
    (h : e.code.ofWrongToken = false) : Explained document options e := by
  have hne : ∀ code : ErrorCode, code.ofWrongToken = true → e.code ≠ code := by
    rintro code hcode rfl
    rw [hcode] at h
    cases h
  exact ⟨hne _ rfl, hne _ rfl, fun he => absurd he (hne _ rfl), fun he => absurd he (hne _ rfl)⟩

/-- What is wrong with a literal is a control byte in it, or is told by another cause. -/
theorem Literal.Flawed.control_or {opened i : Nat} {bs : Bytes} {f : LiteralFailure}
    (h : Flawed opened i bs f) :
    (f.code = .invalidString ∧ ∃ ps b back, (∀ p ∈ ps, p.Legal) ∧
      bs = Pieces.text ps ++ b :: back ∧ b ≤ 0x1F ∧ f.offset = i + (Pieces.text ps).length) ∨
    f.code.ofWrongToken = false := by
  obtain ⟨ps, back, hps, rfl, hstray | hescape⟩ := h
  · cases hstray with
    | control hb => exact .inl ⟨rfl, ps, _, _, hps, rfl, of_decide_eq_true hb, rfl⟩
    | ended => exact .inr rfl
    | illFormed _ _ => exact .inr rfl
  · refine .inr ?_
    cases hescape with
    | code hcode => cases hcode <;> rfl
    | _ => rfl

/-! ### Calls -/

namespace Build

/-- The kinds of token that an operation consumes; none if it looks for itself what comes next. -/
def Operation.kinds : Operation → List Kind
  | .peek | .nextItem | .nextKey => []
  | .readNull => [.null]
  | .readBool .true => [.true]
  | .readBool _ => [.false]
  | .readString => [.string]
  | .openArray => [.array]
  | .openObject => [.object]
  | .readInteger => [.number]
  | .readFloat => [.number, .infinity, .nan]

/-- The byte that an operation tests for before it consumes anything. -/
def Operation.guard? : Operation → Option UInt8
  | .readString => some quote
  | .openArray => some openBracket
  | .openObject => some openBrace
  | _ => none

/-- A token that the operation consumes begins at the cursor. -/
def Call.Coherent (c : Call Reader) : Prop :=
  c.operation.kinds = [] ∨ ∃ kind ∈ c.operation.kinds, Reader.Ready kind c.before

namespace Call.Coherent

variable {c : Call Reader}

/-- A coherent call that consumes one kind of token only is made where a token of that kind begins.
-/
theorem ready (h : c.Coherent) {kind : Kind} (hkinds : c.operation.kinds = [kind]) :
    Reader.Ready kind c.before := by
  rcases h with hnone | ⟨kind', hmem, hready⟩
  · rw [hkinds] at hnone
    cases hnone
  · rw [hkinds, List.mem_singleton] at hmem
    exact hmem ▸ hready

/-- **The test of a coherent call comes out well.** -/
theorem here? (h : c.Coherent) {b : UInt8} (hb : c.operation.guard? = some b) :
    c.before.state.here? = some b := by
  obtain ⟨op, s⟩ := c
  cases op with
  | readString =>
      cases hb
      exact Reader.here?_of_ready (h.ready rfl) fun _ ha => by cases ha; rfl
  | openArray =>
      cases hb
      exact Reader.here?_of_ready (h.ready rfl) fun _ ha => by cases ha; rfl
  | openObject =>
      cases hb
      exact Reader.here?_of_ready (h.ready rfl) fun _ ha => by cases ha; rfl
  | _ => cases hb

end Call.Coherent

end Build

namespace Reader

open Build (Logged Call bare logged record whole?)

variable {document : Bytes} {options : ReadOptions} {s s' : Session Reader}

/-- No error is on record, and the cursor is between lexemes. -/
structure Between (document : Bytes) (options : ReadOptions) (s : Session Reader) : Prop where
  fault : s.fault = none
  asked : s.state.options = options
  lexemes : ∃ front, document = front ++ rest s ∧ s.state.position = front.length ∧
    Lexemes options.allowNonFinite front

/-- The cursor is between lexemes, or the error on record is explained. -/
def Sound (document : Bytes) (options : ReadOptions) (s : Session Reader) : Prop :=
  Between document options s ∨ ∃ e, s.fault = some e ∧ Explained document options e

/-- An explained error, put on record, leaves a sound reader. -/
theorem sound_failAt (hs : s.failed = false) {code : ErrorCode} {offset : Nat}
    (h : Explained document options (Error.locate s.state.source code offset)) :
    Sound document options (failAt s code offset) :=
  .inr ⟨_, fault_failAt hs code offset, h⟩

/-- An error of another cause needs no explanation. -/
theorem sound_failAt_of_code (hs : s.failed = false) {code : ErrorCode} (offset : Nat)
    (hc : code.ofWrongToken = false) : Sound document options (failAt s code offset) :=
  sound_failAt hs (.of_code hc)

namespace Between

theorem failed (h : Between document options s) : s.failed = false := by
  rw [Session.failed, h.fault]
  rfl

/-- A lexeme is gone over. -/
theorem passes (h : Between document options s) {text : Bytes} (hp : Passes text s s')
    (ht : Lexeme options.allowNonFinite text) : Between document options s' := by
  obtain ⟨hfault, hasked, front, hbytes, hposition, hfront⟩ := h
  refine ⟨?_, hp.options_eq.trans hasked, front ++ text, ?_, ?_, hfront.append ht⟩
  · rw [hp.behind]
    exact hfault
  · rw [hbytes, hp.rest_eq, List.append_assoc]
  · rw [hp.position_eq, hposition, List.length_append]

theorem skipBlank (h : Between document options s) :
    Between document options (skipBlank s) := by
  obtain ⟨w, back, hr, -, hskip⟩ := exists_skipBlank s
  rw [hskip]
  exact h.passes (.of_rest hr) (.blanks w)

/-- A mark is a lexeme of its own, so a step over one ends between lexemes again. -/
theorem step (h : Between document options s) {b : UInt8} (hb : s.state.here? = some b)
    (hmark : b ∈ markBytes) : Between document options (step s) := by
  have hp : Passes [b] s (Reader.step s) := .of_rest (Slice.rest_eq_cons_of_get? hb)
  exact h.passes hp (.mark hmark)

/-- An error of another cause, at the cursor. -/
theorem failHere (h : Between document options s) {code : ErrorCode}
    (hc : code.ofWrongToken = false) : Sound document options (failHere s code) :=
  sound_failAt_of_code h.failed _ hc

/-- Where no value begins that may be told. -/
theorem failHere_invalidValue (h : Between document options s) {b : UInt8} {back : Bytes}
    (hr : rest s = b :: back)
    (hno : (∀ kind bs, ¬ Announces options.allowNonFinite kind (b :: bs)) ∨
      ∃ word ∈ plainWords, word.head? = some b ∧ ¬ word <+: b :: back) :
    Sound document options (Reader.failHere s .invalidValue) := by
  obtain ⟨front, hbytes, hposition, hfront⟩ := h.lexemes
  refine sound_failAt h.failed ⟨ErrorCode.noConfusion, ErrorCode.noConfusion,
    ErrorCode.noConfusion, fun _ => ?_⟩
  exact ⟨front, b, back, hr ▸ hbytes, hfront, hposition, hno⟩

end Between

/-! ### What comes next -/

/-- What is told of a byte: a minus sign begins no number, or no value begins with the byte. -/
theorem of_kindOf_eq_error {r : Reader} {b : UInt8} {code : ErrorCode}
    (h : r.kindOf b = .error code) : code = .invalidNumber ∨
      code = .invalidValue ∧ ∀ kind bs, ¬ Announces r.options.allowNonFinite kind (b :: bs) := by
  rw [kindOf] at h
  iterate 6
    split at h
    · cases h
  split at h
  · -- a minus sign is told of in one way only
    split at h
    · exact .inl (Except.error.inj h).symm
    · split at h
      · cases h
      · exact .inl (Except.error.inj h).symm
  iterate 3
    split at h
    · cases h
  refine .inr ⟨(Except.error.inj h).symm, fun kind bs ha => ?_⟩
  cases ha <;> simp_all

/-- Telling what comes next is over blanks at most, and an error is that no value begins there. -/
theorem sound_peek (h : Between document options s) : Sound document options (peek s).2 := by
  have h₁ := h.skipBlank
  rw [peek]
  split
  · exact h₁.failHere rfl
  next b hb =>
    split
    · exact .inl h₁
    next code hkind =>
      rcases of_kindOf_eq_error hkind with rfl | ⟨rfl, hno⟩
      · exact h₁.failHere rfl
      · rw [h₁.asked] at hno
        exact h₁.failHere_invalidValue (Slice.rest_eq_cons_of_get? hb) (.inl hno)

/-- Telling the first item is telling what comes next, but that an end of the text has a cause of
its own. -/
theorem sound_announce (h : Between document options s) :
    Sound document options (announce s).2 :=
  sound_peek h

/-! ### Words and strings -/

/-- Where the first letter of a word stands, reading goes over the whole word, or tells that it is
not there. -/
theorem sound_readWord (h : Between document options s) {word : Bytes} (hmem : word ∈ plainWords)
    {b : UInt8} (hb : s.state.here? = some b) (hhead : word.head? = some b) :
    Sound document options (readWord word s) := by
  rw [readWord]
  split
  · exact h.failHere rfl
  split
  · next hword =>
      obtain ⟨back, hr⟩ := Literal.startsAt_iff.mp hword
      exact .inl (h.passes (.of_rest hr) (.word hmem))
  · next hword =>
      have hr := Slice.rest_eq_cons_of_get? hb
      refine h.failHere_invalidValue hr (.inr ⟨word, hmem, hhead, ?_⟩)
      rintro ⟨back, hback⟩
      exact hword (Literal.startsAt_iff.mpr ⟨back, hr.trans hback.symm⟩)

/-- What is told of a flawed literal. -/
theorem Between.explained (h : Between document options s) (hq : s.state.here? = some quote)
    {f : LiteralFailure} (hflaw : FlawedHere s f) :
    Explained document options (Error.locate s.state.source f.code f.offset) := by
  rcases hflaw.control_or with ⟨hcode, ps, b, back, hps, hr, hb, hoffset⟩ | hcode
  · obtain ⟨front, hbytes, hposition, hfront⟩ := h.lexemes
    have hrest : rest s = quote :: (Pieces.text ps ++ b :: back) := by
      rw [← hr]
      exact Slice.rest_eq_cons_of_get? hq
    rw [hcode, hoffset, hposition]
    exact ⟨ErrorCode.noConfusion, ErrorCode.noConfusion,
      fun _ => ⟨front, ps, b, back, hrest ▸ hbytes, hfront, hps, hb, rfl⟩, ErrorCode.noConfusion⟩
  · exact .of_code hcode

/-- Where a quote stands, reading goes over a string literal, or tells of a control byte in it. -/
theorem sound_readString (h : Between document options s) (hq : s.state.here? = some quote) :
    Sound document options (readString s).2 := by
  rcases exists_literal_or_flaw hq with ⟨l, back, hr⟩ | ⟨f, hflaw⟩
  · rw [readString_of_literal h.fault hr]
    exact .inl (h.passes (.of_rest hr) (.string l))
  · rw [readString_of_flawed h.fault hq hflaw]
    exact .inr ⟨_, rfl, h.explained hq hflaw⟩

/-! ### Arrays and objects -/

section

variable {α : Type} {closing : UInt8} {ended : α}

/-- Entering a container is sound as soon as reading its first part is. -/
theorem sound_firstPart {first : Session Reader → α × Session Reader}
    (h : Between document options s) (hclosing : closing ∈ markBytes)
    (hfirst : ∀ {s}, Between document options s → Sound document options (first s).2) :
    Sound document options (firstPart closing ended first s).2 := by
  have h₁ := h.skipBlank
  rw [firstPart]
  split
  · next hb => exact .inl (h₁.step hb hclosing)
  · exact hfirst h₁

/-- Going on in a container is sound as soon as reading its next part is. -/
theorem sound_nextPart {next : Session Reader → α × Session Reader}
    (h : Between document options s) (hclosing : closing ∈ markBytes)
    (hnext : ∀ {s}, Between document options s → Sound document options (next s).2) :
    Sound document options (nextPart closing ended next s).2 := by
  have h₁ := h.skipBlank
  rw [nextPart]
  split
  · exact h₁.failHere rfl
  next b hb =>
    split
    · next hcomma =>
        obtain rfl := beq_iff_eq.mp hcomma
        exact hnext (h₁.step hb (by decide))
    split
    · next hclose =>
        obtain rfl := beq_iff_eq.mp hclose
        exact .inl (h₁.step hb hclosing)
    · have hs : (step (skipBlank s)).failed = false := h₁.failed
      exact sound_failAt_of_code hs _ rfl

end

/-- Opening an array goes over its bracket and up to its first item. -/
theorem sound_openArray (h : Between document options s)
    (hb : s.state.here? = some openBracket) : Sound document options (openArray s).2 := by
  rw [openArray, if_pos hb]
  exact sound_firstPart (h.step hb (by decide)) (by decide) sound_announce

theorem sound_nextItem (h : Between document options s) :
    Sound document options (nextItem s).2 :=
  sound_nextPart h (by decide) sound_announce

/-- Reading a key goes over a string literal and the colon behind it. -/
theorem sound_readKey (h : Between document options s) : Sound document options (readKey s).2 := by
  have h₁ := h.skipBlank
  rw [readKey]
  dsimp only
  split
  · exact h₁.failHere rfl
  next b hb =>
    split
    · next hquote =>
        obtain rfl := beq_iff_eq.mp hquote
        rcases sound_readString h₁ hb with h₂ | ⟨e, he, hexplained⟩
        · rw [if_neg (by simp [h₂.failed])]
          have h₃ := h₂.skipBlank
          split
          · exact h₃.failHere rfl
          next c hc =>
            split
            · next hcolon =>
                obtain rfl := beq_iff_eq.mp hcolon
                exact .inl (h₃.step hc (by decide))
            · exact h₃.failHere rfl
        · rw [if_pos (by rw [Session.failed, he]; rfl)]
          exact .inr ⟨e, he, hexplained⟩
    · exact h₁.failHere rfl

theorem sound_openObject (h : Between document options s)
    (hb : s.state.here? = some openBrace) : Sound document options (openObject s).2 := by
  rw [openObject, if_pos hb]
  exact sound_firstPart (h.step hb (by decide)) (by decide) sound_readKey

theorem sound_nextKey (h : Between document options s) :
    Sound document options (nextKey s).2 :=
  sound_nextPart h (by decide) sound_readKey

/-! ### Numbers -/

/-- Looking for an integer goes over a whole number, or stays where the number begins. -/
theorem sound_readInteger (h : Between document options s) :
    Sound document options (readInteger s).2 := by
  have h₁ := h.skipBlank
  rw [readInteger]
  split
  · exact .inl h₁
  split
  · exact h₁.failHere rfl
  next m stop hn =>
    obtain ⟨n, -, ⟨back, hr, -⟩, rfl⟩ := numeralAt_eq_iff.mp hn
    split
    · split
      · exact .inl h₁
      · exact .inl (h₁.passes (.of_rest hr) (.number n))
    · exact .inl h₁

/-- Reading a number goes over all of it, or stays where it begins. -/
theorem sound_readFloat (h : Between document options s) :
    Sound document options (readFloat s).2 := by
  have h₁ := h.skipBlank
  rw [readFloat]
  dsimp only
  split
  · next word x hword =>
      split at hword
      · next hallow =>
          obtain ⟨w, back, rfl, -, hr⟩ := exists_word_of_find? hword
          rw [h₁.asked] at hallow
          exact .inl (h₁.passes (.of_rest hr) (.nonFinite w hallow))
      · cases hword
  split
  · exact h₁.failHere rfl
  next m stop hn =>
    obtain ⟨n, -, ⟨back, hr, -⟩, rfl⟩ := numeralAt_eq_iff.mp hn
    split
    · exact .inl (h₁.passes (.of_rest hr) (.number n))
    · exact h₁.failHere rfl

/-! ### Coherent calls -/

/-- **A coherent call goes from lexeme to lexeme**, or records an error that is explained. -/
theorem sound_run (h : Between document options s) {op : Build.Operation}
    (hc : Call.Coherent ⟨op, s⟩) : Sound document options (op.run tokens s) := by
  cases op with
  | peek => exact sound_peek h
  | readNull =>
      have hb := here?_of_ready (hc.ready rfl) fun _ ha => by cases ha; rfl
      exact sound_readWord h (by decide) hb rfl
  | readBool kind =>
      cases kind with
      | true =>
          have hb := here?_of_ready (hc.ready rfl) fun _ ha => by cases ha; rfl
          exact sound_readWord h (by decide) hb rfl
      | _ =>
          have hb := here?_of_ready (hc.ready rfl) fun _ ha => by cases ha; rfl
          exact sound_readWord h (by decide) hb rfl
  | readString => exact sound_readString h (hc.here? rfl)
  | openArray => exact sound_openArray h (hc.here? rfl)
  | nextItem => exact sound_nextItem h
  | openObject => exact sound_openObject h (hc.here? rfl)
  | nextKey => exact sound_nextKey h
  | readInteger => exact sound_readInteger h
  | readFloat => exact sound_readFloat h

/-! ### The builder over a reader -/

/-- The calls so far have been coherent, and the reader is where they leave it. -/
structure Steady (document : Bytes) (options : ReadOptions) (s : Session (Logged Reader)) :
    Prop where
  calls : ∀ c ∈ s.state.2, c.Coherent
  sound : Sound document options (bare s)

namespace Steady

variable {s : Session (Logged Reader)}

/-- While no error is on record the bare reader is between lexemes. -/
theorem between (h : Steady document options s) (hs : s.failed = false) :
    Between document options (bare s) := by
  rcases h.sound with hbetween | ⟨e, he, -⟩
  · exact hbetween
  · have hnone : (bare s).fault = none := fault_eq_none hs
    rw [he] at hnone
    cases hnone

/-- Recording a coherent call keeps the reader steady. -/
theorem record (h : Steady document options s) (hs : s.failed = false) {op : Build.Operation}
    (hc : Call.Coherent ⟨op, bare s⟩) : Steady document options (record tokens op s) := by
  refine ⟨fun c hmem => ?_, sound_run (h.between hs) hc⟩
  rcases List.mem_append.mp hmem with hmem | hmem
  · exact h.calls c hmem
  · rw [List.mem_singleton.mp hmem]
    exact hc

/-- An operation that looks for itself what comes next. -/
theorem look (h : Steady document options s) (hs : s.failed = false) {op : Build.Operation}
    (hnone : op.kinds = []) : Steady document options (Build.record tokens op s) :=
  h.record hs (.inl hnone)

/-- An operation that consumes a token. -/
theorem consume (h : Steady document options s) (hs : s.failed = false) {op : Build.Operation}
    {kind : Kind} (hkind : kind ∈ op.kinds) (hready : Ready kind (bare s)) :
    Steady document options (Build.record tokens op s) :=
  h.record hs (.inr ⟨kind, hkind, hready⟩)

/-- An error of the builder's own. -/
theorem fail (h : Steady document options s) (hs : s.failed = false) {code : ErrorCode}
    (hc : code.ofWrongToken = false) :
    Steady document options (Build.fail (logged tokens) s code) :=
  ⟨h.calls, (h.between hs).failHere hc⟩

/-- An integer and then, if need be, another number: both calls are coherent. -/
theorem number (h : Steady document options s) (hs : s.failed = false)
    (hready : Ready .number (bare s)) :
    Steady document options (Build.number (logged tokens) s).2 := by
  have h₁ : Steady document options (Build.record tokens .readInteger s) :=
    h.consume hs (by decide) hready
  rw [Build.number]
  dsimp only [logged]
  split
  · exact h₁
  next hf =>
    have hs₁ : (Build.record tokens .readInteger s).failed = false := by simpa using hf
    split
    · exact h₁
    · exact h₁.fail hs₁ rfl
    next hnot =>
      -- what is no integer is left where it stands
      have hstays : bare (Build.record tokens .readInteger s) = bare s :=
        ((readInteger_eq_notInteger_iff hs hready.stops).mp ⟨Prod.ext hnot rfl, hs₁⟩).1
      exact h₁.consume hs₁ (by decide) (hstays ▸ hready)

/-- The builder reads a scalar by the operation of the kind that has been announced. -/
theorem scalar (h : Steady document options s) (hs : s.failed = false) {kind : Kind}
    (harray : kind ≠ .array) (hobject : kind ≠ .object) (hready : Ready kind (bare s)) :
    Steady document options (Build.scalar (logged tokens) kind s).2 := by
  cases kind with
  | null => exact h.consume hs (by decide) hready
  | true => exact h.consume hs (by decide) hready
  | false => exact h.consume hs (by decide) hready
  | string => exact h.consume hs (by decide) hready
  | number => exact h.number hs hready
  | infinity => exact h.consume hs (by decide) hready
  | nan => exact h.consume hs (by decide) hready
  | array => exact absurd rfl harray
  | object => exact absurd rfl hobject
  | minus | other => cases hready

end Steady

/-- What begins behind the blanks is announced there. -/
theorem Begins.ready {kind : Kind} {s s' : Session Reader} (h : Begins kind s s') :
    Ready kind s' := by
  obtain ⟨w, -, ha⟩ := begins_iff_passes.mp h
  exact ha

/-- The first item that opening an array tells of begins where the reader stands. -/
theorem ready_openArray {s s' : Session Reader} {next : Option Kind} (hs : s.failed = false)
    (h : openArray s = (next, s')) (hf : s'.failed = false) : ∀ kind ∈ next, Ready kind s' := by
  rintro kind rfl
  obtain ⟨-, ⟨hnone, -⟩ | ⟨kind', hsome, hbegins⟩⟩ := (openArray_eq_iff hs).mp ⟨h, hf⟩
  · cases hnone
  · exact Option.some.inj hsome ▸ hbegins.ready

theorem ready_nextItem {s s' : Session Reader} {next : Option Kind} (hs : s.failed = false)
    (h : nextItem s = (next, s')) (hf : s'.failed = false) : ∀ kind ∈ next, Ready kind s' := by
  rintro kind rfl
  obtain ⟨hnone, -⟩ | ⟨kind', s₁, hsome, -, hbegins⟩ := (nextItem_eq_iff hs).mp ⟨h, hf⟩
  · cases hnone
  · exact Option.some.inj hsome ▸ hbegins.ready

/-- **The builder makes coherent calls only.** -/
theorem lockstep_steady (document : Bytes) (options : ReadOptions) :
    Build.Lockstep (logged tokens) (fun s t => s = t ∧ Steady document options s)
      (fun kind s => Ready kind (bare s)) fun _ => False where
  failed h := congrArg Session.failed h.1
  tooDeep _ h hs _ := ⟨congrArg (Build.fail (logged tokens) · .nestingTooDeep) h.1, h.2.fail hs rfl⟩
  scalar kind harray hobject h hs hready := by
    obtain ⟨rfl, h⟩ := h
    exact .inl ⟨rfl, h.scalar hs harray hobject hready⟩
  peek h hs := by
    obtain ⟨rfl, h⟩ := h
    exact .inr ⟨⟨rfl, h.look hs rfl⟩, fun hf => ⟨rfl, Begins.ready ((peek_eq_iff hs).mp ⟨rfl, hf⟩)⟩⟩
  openArray h hs hready := by
    obtain ⟨rfl, h⟩ := h
    exact .inr ⟨⟨rfl, h.consume hs (by decide) hready⟩, fun hf => ⟨rfl, ready_openArray hs rfl hf⟩⟩
  nextItem h hs := by
    obtain ⟨rfl, h⟩ := h
    exact .inr ⟨⟨rfl, h.look hs rfl⟩, fun hf => ⟨rfl, ready_nextItem hs rfl hf⟩⟩
  openObject h hs hready := by
    obtain ⟨rfl, h⟩ := h
    exact .inr ⟨⟨rfl, h.consume hs (by decide) hready⟩, fun _ => rfl⟩
  nextKey h hs := by
    obtain ⟨rfl, h⟩ := h
    exact .inr ⟨⟨rfl, h.look hs rfl⟩, fun _ => rfl⟩
  lost_nextItem h _ := h.elim
  lost_nextKey h _ := h.elim

/-- A fresh reader has gone over nothing. -/
theorem between_start (source : Slice) (options : ReadOptions) :
    Between source.bytes options (start source options) :=
  ⟨rfl, rfl, [], rest_start source options, rfl, .none⟩

/-- **Tokens are consumed where they have been announced.**  Let a value be built from a fresh
reader with no error on record, within any limit.  Whenever the builder has a token consumed, a
token of that kind begins at the cursor; so the tests with which a string, an array and an object
are begun all come out well.  An error is none of a source that breaks its contract; a string is
told to be invalid only at a control byte inside a literal; and a value only where whole lexemes are
followed by a byte that no value begins with, or by the first letter of a word that does not stand
there. -/
theorem tokens_are_consumed_where_announced (source : Slice) (options : ReadOptions)
    (limit : Nat) :
    ∃ v s, Build.whole? (logged tokens) limit (bounded.steps (start source options)) none
        (Logged.start ⟨source, options, 0⟩) = some (v, s) ∧
      build limit (start source options) = (v, bare s) ∧
      (∀ c ∈ s.state.2, c.Coherent ∧
        ∀ b, c.operation.guard? = some b → c.before.state.here? = some b) ∧
      ∀ e, s.fault = some e → e.code ≠ .unresolvedMinus ∧ e.code ≠ .unsupportedToken ∧
        (e.code = .invalidString → ControlAt options.allowNonFinite source.bytes e.offset) ∧
        (e.code = .invalidValue → NoValueAt options.allowNonFinite source.bytes e.offset) := by
  have hbuild : whole? tokens limit (bounded.steps (start source options)) none
      { state := ⟨source, options, 0⟩ } = some (build limit (start source options)) :=
    (Option.some_get _).symm
  obtain ⟨s, hrun, hbare⟩ := Build.exists_logged hbuild
  have hstart : Steady source.bytes options (Logged.start ⟨source, options, 0⟩) :=
    ⟨fun c hc => absurd hc List.not_mem_nil, .inl (between_start source options)⟩
  have hsteady : Steady source.bytes options s := by
    rcases (lockstep_steady source.bytes options).next? limit _ _ ⟨rfl, hstart⟩ rfl _ _ hrun hrun
      with ⟨-, h⟩ | h
    · exact h
    · exact h.elim
  refine ⟨_, s, hrun, Prod.ext rfl hbare.symm, fun c hc => ⟨hsteady.calls c hc, fun b hb =>
    (hsteady.calls c hc).here? hb⟩, fun e he => ?_⟩
  rcases hsteady.sound with hbetween | ⟨e', he', h⟩
  · have hnone : s.fault = none := hbetween.fault
    rw [he] at hnone
    cases hnone
  · obtain rfl : e' = e := Option.some.inj (he'.symm.trans he)
    exact ⟨h.resolved, h.supported, h.string, h.value⟩

/-- A word is not spelt out inside an array. -/
example : (build 1 (start (.ofBytes 0 (Bytes.ofString "[1, nil0]")) {})).2.fault =
    some ⟨.invalidValue, 4, 1, 5⟩ := by
  rfl

end Reader

end JsonTree
