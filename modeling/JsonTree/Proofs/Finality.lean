import JsonTree.Proofs.Finality.Literal
import JsonTree.Proofs.Lockstep
import JsonTree.Proofs.Reading

/-!
# Finality — errors that no further bytes undo

A document is read next to a longer one that begins with it.  As long as the readers see the same
bytes they are in step (`Reader.InStep`).  What happens at the end of the shorter document tells
nothing about the longer one: a value may be missing there, or a number may go on.  Then the first
reader is undecided (`Reader.Undecided`): it has recorded an error that more bytes may undo, or it
has come to the end without an error, and will record such an error at the next operation.  So a
final error is recorded while the readers are in step.

* `lockstep`: the operations keep the readers in step until the first one is undecided.
* `final_error_stays`: a document that is rejected for good is rejected with the same error,
  whatever is appended to it.
-/

namespace JsonTree

open Ascii Bytes

/-- What cannot be joined to a value is known by its first byte. -/
theorem Node.EndsBefore.append_tail {node : Node} {back : Bytes} (h : node.EndsBefore back)
    (hne : back ≠ []) (tail : Bytes) : node.EndsBefore (back ++ tail) := by
  obtain ⟨b, back, rfl⟩ := List.exists_cons_of_ne_nil hne
  have hstops : ∀ {test : UInt8 → Bool}, Stops test (b :: back) → Stops test (b :: back ++ tail) :=
    fun h => (stops_cons _ _ _).mpr ((stops_cons _ _ _).mp h)
  cases node with
  | number n =>
      exact ⟨hstops h.digit, fun hf he => hstops (h.point hf he), fun he => hstops (h.mark he)⟩
  | _ => trivial

namespace Reader

/-- The second reader has seen the same bytes of a document that begins with that of the first. -/
structure InStep (s t : Session Reader) : Prop where
  source : t.state.source.BeginsWith s.state.source
  options : t.state.options = s.state.options
  position : t.state.position = s.state.position
  inside : s.state.position ≤ s.state.source.size
  fault : t.fault = s.fault

/-- The reader has recorded an error that more bytes may undo, or it has come to the end. -/
def Undecided (s : Session Reader) : Prop :=
  (∃ e, s.fault = some e ∧ e.code.isFinal = false) ∨
    s.fault = none ∧ s.state.position = s.state.source.size

/-- A value that begins as announced stands at the cursor. -/
def Ready (kind : Kind) (s : Session Reader) : Prop :=
  Announces s.state.options.allowNonFinite kind (rest s)

variable {s t : Session Reader}

/-! ### Readers in step -/

namespace InStep

/-- Readers in step have failed alike. -/
theorem failed_eq (h : InStep s t) : s.failed = t.failed := by
  rw [Session.failed, Session.failed, h.fault]

/-- What is left to the second reader begins with what is left to the first. -/
theorem rest_eq (h : InStep s t) : ∃ tail, rest t = rest s ++ tail := by
  rw [rest, h.position]
  exact h.source.rest h.inside

/-- The byte that the first reader stands on, the second stands on too. -/
theorem here? (h : InStep s t) {b : UInt8} (hb : s.state.here? = some b) :
    t.state.here? = some b := by
  rw [Reader.here?, h.position]
  exact h.source.get? hb

/-- Both readers are moved to the same index. -/
theorem moveTo (h : InStep s t) {i : Nat} (hi : i ≤ s.state.source.size) :
    InStep (moveTo s i) (moveTo t i) :=
  ⟨h.source, h.options, rfl, hi, h.fault⟩

/-- Both readers take one step over a byte. -/
theorem step (h : InStep s t) {b : UInt8} (hb : s.state.here? = some b) :
    InStep (step s) (step t) := by
  rw [Reader.step, Reader.step, h.position]
  exact h.moveTo (Slice.lt_size_of_get? hb)

/-- Blanks are gone over alike up to a byte that is none. -/
theorem skipBlank (h : InStep s t) {b : UInt8} (hb : (skipBlank s).state.here? = some b) :
    InStep (skipBlank s) (skipBlank t) := by
  rw [Reader.skipBlank, Reader.skipBlank, h.position, h.source.skipBlank hb]
  exact h.moveTo (Slice.skipBlank_le h.inside)

/-- The same error is recorded at an index in the shorter document. -/
theorem failAt (h : InStep s t) (code : ErrorCode) {offset : Nat}
    (ho : offset ≤ s.state.source.size) : InStep (failAt s code offset) (failAt t code offset) := by
  refine ⟨h.source, h.options, h.position, h.inside, ?_⟩
  have hlocate : Error.locate t.state.source code offset =
      Error.locate s.state.source code offset := by
    rw [Error.locate, Error.locate, h.source.ahead (by rwa [Nat.zero_add])]
  change t.fault.record _ _ _ = s.fault.record _ _ _
  rw [h.fault]
  cases s.fault with
  | none => exact congrArg some hlocate
  | some e => rfl

/-- Both readers record the same error at their cursors. -/
theorem failHere (h : InStep s t) (code : ErrorCode) :
    InStep (failHere s code) (failHere t code) := by
  rw [Reader.failHere, Reader.failHere, h.position]
  exact h.failAt code h.inside

end InStep

/-! ### Undecided readers -/

/-- An error that more bytes may undo. -/
theorem undecided_failAt (hs : s.failed = false) {code : ErrorCode} (hc : code.isFinal = false)
    (offset : Nat) : Undecided (failAt s code offset) :=
  .inl ⟨_, fault_failAt hs code offset, hc⟩

/-- An error at the cursor that more bytes may undo. -/
theorem undecided_failHere (hs : s.failed = false) {code : ErrorCode}
    (hc : code.isFinal = false) : Undecided (failHere s code) :=
  undecided_failAt hs hc _

section

open Build (KeepsUp SameKind SameItem SameKey)

variable {α : Type} {agree : α → α → Session Reader → Prop}

/-- The first reader is undecided with an error. -/
theorem keepsUp_of_undecided {a : α} {y : α × Session Reader} {code : ErrorCode}
    (hs : s.failed = false) (hc : code.isFinal = false) :
    KeepsUp InStep Undecided agree (a, failHere s code) y :=
  .inl ⟨failed_failHere _ _, undecided_failHere hs hc⟩

/-- Both readers record the same error. -/
theorem keepsUp_failAt (h : InStep s t) {a a' : α} {code : ErrorCode} {offset : Nat}
    (ho : offset ≤ s.state.source.size) :
    KeepsUp InStep Undecided agree (a, failAt s code offset) (a', failAt t code offset) := by
  refine .inr ⟨h.failAt code ho, fun hf => ?_⟩
  rw [failed_failAt] at hf
  cases hf

/-- Both readers record the same error at their cursors, whatever they answer. -/
theorem keepsUp_failHere (h : InStep s t) {a a' : α} {code : ErrorCode} :
    KeepsUp InStep Undecided agree (a, failHere s code) (a', failHere t code) := by
  rw [failHere, failHere, h.position]
  exact keepsUp_failAt h h.inside

/-! ### What comes next -/

/-- A byte tells the same of what comes next, unless it is a minus sign at the end. -/
theorem InStep.kindOf (h : InStep s t) (b : UInt8) :
    s.state.kindOf b = .error .invalidNumber ∨ t.state.kindOf b = s.state.kindOf b := by
  rw [Reader.kindOf, Reader.kindOf, h.options, h.position]
  cases hnext : s.state.source.get? (s.state.position + 1) with
  | some next =>
      rw [h.source.get? hnext]
      exact .inr rfl
  | none =>
      by_cases hb : (b == minus) = true
      · obtain rfl := beq_iff_eq.mp hb
        exact .inl rfl
      · simp only [hb, Bool.false_eq_true, ↓reduceIte, or_true]

/-- Telling what comes next keeps up: the same kind begins for both, or the text is over. -/
theorem keepsUp_peek (h : InStep s t) (hs : s.failed = false) :
    KeepsUp InStep Undecided (SameKind Ready) (peek s) (peek t) := by
  rw [peek, peek]
  cases hb : (skipBlank s).state.here? with
  | none => exact keepsUp_of_undecided hs rfl
  | some b =>
      have h₁ := h.skipBlank hb
      dsimp only
      rw [h₁.here? hb]
      rcases h₁.kindOf b with hk | hk
      · rw [hk]
        exact keepsUp_of_undecided hs rfl
      dsimp only
      rw [hk]
      cases hkind : (skipBlank s).state.kindOf b with
      | error code => exact keepsUp_failHere h₁
      | ok kind =>
          have hr := Slice.rest_eq_cons_of_get? hb
          have hready : Ready kind (skipBlank s) := by
            rw [Ready, rest, hr]
            exact (kindOf_eq_ok_iff hr).mp hkind
          exact .inr ⟨h₁, fun _ => ⟨rfl, hready⟩⟩

/-- Telling the first item keeps up with the longer document. -/
theorem keepsUp_announce (h : InStep s t) (hs : s.failed = false) :
    KeepsUp InStep Undecided (SameItem Ready) (announce s) (announce t) := by
  rw [announce, announce]
  rcases keepsUp_peek h hs with hlost | ⟨h₁, hagree⟩
  · exact .inl hlost
  · refine .inr ⟨h₁, fun hf => ?_⟩
    obtain ⟨hkind, hready⟩ := hagree hf
    have hf' := h₁.failed_eq
    dsimp only at hf ⊢
    rw [← hf', hf, ← hkind]
    exact ⟨rfl, fun kind hk => Option.some.inj hk ▸ hready⟩

/-- At the end of the document nothing can be announced. -/
theorem undecided_announce (hs : s.failed = false) (hb : (skipBlank s).state.here? = none) :
    (announce s).2.failed = true ∧ Undecided (announce s).2 := by
  have hs₁ : (skipBlank s).failed = false := hs
  rw [announce, peek, hb]
  exact ⟨failed_failHere _ _, undecided_failHere hs₁ rfl⟩

/-! ### Words and strings -/

/-- A word is gone over by both readers, missed by both at the same byte, or cut short for the
first. -/
theorem inStep_readWord (h : InStep s t) (hs : s.failed = false) (word : Bytes) :
    InStep (readWord word s) (readWord word t) ∨ Undecided (readWord word s) := by
  rw [readWord]
  by_cases hshort : s.state.source.size < s.state.position + word.length
  · rw [if_pos hshort]
    exact .inr (undecided_failHere hs rfl)
  · have hinside : s.state.position + word.length ≤ s.state.source.size := by omega
    have hsize := h.source.size_le
    have hlong : ¬ t.state.source.size < s.state.position + word.length := by omega
    rw [if_neg hshort, readWord, h.position, if_neg hlong, h.source.startsAt hinside]
    split
    · exact .inl (h.moveTo hinside)
    · exact .inl (h.failHere _)

/-- A string is read alike, whatever follows it. -/
theorem keepsUp_readString (h : InStep s t) (hs : s.failed = false)
    (hquote : s.state.here? = some quote) :
    KeepsUp InStep Undecided (fun _ _ _ => True) (readString s) (readString t) := by
  rcases hread : readString s with ⟨token, s'⟩
  cases hf : s'.failed with
  | false =>
      obtain ⟨l, back, hr, -, rfl⟩ := (readString_eq_iff hs).mp ⟨hread, hf⟩
      obtain ⟨tail, htail⟩ := h.rest_eq
      rw [hr, List.append_assoc] at htail
      obtain ⟨ht', -⟩ := (readString_eq_iff (h.failed_eq.symm.trans hs)).mpr
        ⟨l, _, htail, rfl, rfl⟩
      rw [ht', skip, skip, h.position]
      exact .inr ⟨h.moveTo (Slice.add_length_le hr h.inside), fun _ => trivial⟩
  | true =>
      rw [readString, if_pos hquote] at hread
      rw [readString, if_pos (h.here? hquote), h.position]
      cases hliteral : Literal.read s.state.source s.state.position with
      | ok found =>
          rw [hliteral] at hread
          obtain ⟨part | bs, stop⟩ := found <;> cases hread <;>
            exact absurd hf (ne_true_of_eq_false hs)
      | error f =>
          rw [hliteral] at hread
          cases hread
          cases hfinal : f.code.isFinal with
          | false =>
              have hs₁ : (moveTo s f.stop).failed = false := hs
              exact .inl ⟨hf, undecided_failAt hs₁ hfinal _⟩
          | true =>
              obtain ⟨hliteral', hoffset⟩ := Literal.read_error h.source hliteral hfinal
              have hstop := Literal.stopOf_read_le (Slice.lt_size_of_get? hquote)
              rw [hliteral] at hstop
              rw [hliteral']
              exact keepsUp_failAt (h.moveTo hstop) hoffset

/-! ### Arrays and objects -/

/-- The cursor is at the byte that every value of the announced kind begins with. -/
theorem here?_of_ready {kind : Kind} {b : UInt8} (hready : Ready kind s)
    (hbegins : ∀ bs, Announces s.state.options.allowNonFinite kind bs → bs.head? = some b) :
    s.state.here? = some b := by
  rw [here?_eq]
  exact hbegins _ hready

/-- What follows an opening mark: the closing one, or the first part. -/
def firstPart (closing : UInt8) (ended : α) (first : Session Reader → α × Session Reader)
    (s : Session Reader) : α × Session Reader :=
  let s := skipBlank s
  if s.state.here? = some closing then (ended, step s) else first s

/-- What follows a part: a comma and the next part, or the closing mark. -/
def nextPart (closing : UInt8) (ended : α) (next : Session Reader → α × Session Reader)
    (s : Session Reader) : α × Session Reader :=
  let s := skipBlank s
  match s.state.here? with
  | none => (ended, failHere s .unexpectedEnd)
  | some b =>
    if b == comma then next (step s)
    else if b == closing then (ended, step s)
    else (ended, failAt (step s) .expectedCommaOrEnd s.state.position)

/-- Entering a container keeps up if reading its first part does. -/
theorem keepsUp_firstPart (h : InStep s t) {closing : UInt8} {ended : α}
    {first : Session Reader → α × Session Reader} (hskip : ∀ s, first (skipBlank s) = first s)
    (hended : ∀ s', agree ended ended s')
    (hnone : (skipBlank s).state.here? = none → (first s).2.failed = true ∧ Undecided (first s).2)
    (hfirst : KeepsUp InStep Undecided agree (first s) (first t)) :
    KeepsUp InStep Undecided agree (firstPart closing ended first s)
      (firstPart closing ended first t) := by
  rw [firstPart, firstPart, hskip, hskip]
  cases hb : (skipBlank s).state.here? with
  | none =>
      rw [if_neg (Option.some_ne_none _).symm]
      exact .inl (hnone hb)
  | some b =>
      have h₁ := h.skipBlank hb
      rw [h₁.here? hb]
      split
      · exact .inr ⟨h₁.step hb, fun _ => hended _⟩
      · exact hfirst

/-- Going on in a container keeps up if reading its next part does. -/
theorem keepsUp_nextPart (h : InStep s t) (hs : s.failed = false) {closing : UInt8} {ended : α}
    {next : Session Reader → α × Session Reader} (hended : ∀ s', agree ended ended s')
    (hnext : ∀ {s t}, InStep s t → s.failed = false →
      KeepsUp InStep Undecided agree (next s) (next t)) :
    KeepsUp InStep Undecided agree (nextPart closing ended next s)
      (nextPart closing ended next t) := by
  rw [nextPart, nextPart]
  cases hb : (skipBlank s).state.here? with
  | none => exact keepsUp_of_undecided hs rfl
  | some b =>
      have h₁ := h.skipBlank hb
      have h₂ := h₁.step hb
      dsimp only
      rw [h₁.here? hb, h₁.position]
      dsimp only
      split
      · exact hnext h₂ hs
      split
      · exact .inr ⟨h₂, fun _ => hended _⟩
      · exact keepsUp_failAt h₂ h₁.inside

/-- Opening an array keeps up with the longer document. -/
theorem keepsUp_openArray (h : InStep s t) (hs : s.failed = false) (hready : Ready .array s) :
    KeepsUp InStep Undecided (SameItem Ready) (openArray s) (openArray t) := by
  have hopen : s.state.here? = some openBracket :=
    here?_of_ready hready fun _ h => by cases h; rfl
  have h₁ := h.step hopen
  have hs₁ : (step s).failed = false := hs
  rw [openArray, if_pos hopen, openArray, if_pos (h.here? hopen)]
  exact keepsUp_firstPart h₁ announce_skipBlank (fun _ => .none) (undecided_announce hs₁)
    (keepsUp_announce h₁ hs₁)

theorem keepsUp_nextItem (h : InStep s t) (hs : s.failed = false) :
    KeepsUp InStep Undecided (SameItem Ready) (nextItem s) (nextItem t) :=
  keepsUp_nextPart h hs (fun _ => .none) keepsUp_announce

/-- Reading a key keeps up with the longer document. -/
theorem keepsUp_readKey (h : InStep s t) (hs : s.failed = false) :
    KeepsUp InStep Undecided SameKey (readKey s) (readKey t) := by
  rw [readKey, readKey]
  cases hb : (skipBlank s).state.here? with
  | none => exact keepsUp_of_undecided hs rfl
  | some b =>
      have h₁ := h.skipBlank hb
      have hs₁ : (skipBlank s).failed = false := hs
      dsimp only
      rw [h₁.here? hb]
      dsimp only
      split
      · next hquote =>
          rw [beq_iff_eq.mp hquote] at hb
          rcases keepsUp_readString h₁ hs₁ hb with ⟨hf, hlost⟩ | ⟨h₂, -⟩
          · rw [if_pos hf]
            exact .inl ⟨hf, hlost⟩
          rw [← h₂.failed_eq]
          split
          · next hf => exact .inr ⟨h₂, fun hf' => absurd hf (ne_true_of_eq_false hf')⟩
          next hf =>
          have hs₂ : (readString (skipBlank s)).2.failed = false := by simpa using hf
          cases hc : (skipBlank (readString (skipBlank s)).2).state.here? with
          | none => exact keepsUp_of_undecided hs₂ rfl
          | some c =>
              have h₃ := h₂.skipBlank hc
              rw [h₃.here? hc]
              dsimp only
              split
              · exact .inr ⟨h₃.step hc, fun _ => rfl⟩
              · exact keepsUp_failHere h₃
      · exact keepsUp_failHere h₁

/-- At the end of the text a key may still follow. -/
theorem undecided_readKey (hs : s.failed = false) (hb : (skipBlank s).state.here? = none) :
    (readKey s).2.failed = true ∧ Undecided (readKey s).2 := by
  have hs₁ : (skipBlank s).failed = false := hs
  rw [readKey, hb]
  exact ⟨failed_failHere _ _, undecided_failHere hs₁ rfl⟩

theorem keepsUp_openObject (h : InStep s t) (hs : s.failed = false) (hready : Ready .object s) :
    KeepsUp InStep Undecided SameKey (openObject s) (openObject t) := by
  have hopen : s.state.here? = some openBrace :=
    here?_of_ready hready fun _ h => by cases h; rfl
  have h₁ := h.step hopen
  have hs₁ : (step s).failed = false := hs
  rw [openObject, if_pos hopen, openObject, if_pos (h.here? hopen)]
  exact keepsUp_firstPart h₁ readKey_skipBlank (fun _ => rfl) (undecided_readKey hs₁)
    (keepsUp_readKey h₁ hs₁)

theorem keepsUp_nextKey (h : InStep s t) (hs : s.failed = false) :
    KeepsUp InStep Undecided SameKey (nextKey s) (nextKey t) :=
  keepsUp_nextPart h hs (fun _ => rfl) keepsUp_readKey

/-- Behind the end of the document nothing is found but the end. -/
theorem here?_skipBlank_of_undecided (h : Undecided s) (hs : s.failed = false) :
    (skipBlank s).state.here? = none := by
  rcases h with ⟨e, he, -⟩ | ⟨-, hend⟩
  · rw [fault_eq_none hs] at he
    cases he
  · refine (Slice.get?_eq_none_iff _ _).mpr ?_
    exact hend.symm.le.trans (Slice.le_skipBlank _ _)

/-- An undecided reader that goes on in a container meets the end, which more bytes may undo. -/
theorem undecided_nextPart (h : Undecided s) (hs : s.failed = false) (closing : UInt8) (ended : α)
    (next : Session Reader → α × Session Reader) :
    (nextPart closing ended next s).2.failed = true ∧
      Undecided (nextPart closing ended next s).2 := by
  have hs₁ : (skipBlank s).failed = false := hs
  rw [nextPart, here?_skipBlank_of_undecided h hs]
  exact ⟨failed_failHere _ _, undecided_failHere hs₁ rfl⟩

/-! ### Numbers -/

/-- What is wrong with a number is not final, as the number may go on. -/
theorem undecided_readInteger (hs : s.failed = false) :
    (readInteger s).2.failed = true → Undecided (readInteger s).2 := by
  have hs₁ : (skipBlank s).failed = false := hs
  have fine : s.failed = true → Undecided (skipBlank s) :=
    fun hf => absurd hf (ne_true_of_eq_false hs)
  rw [readInteger]
  split
  · exact fine
  split
  · exact fun _ => undecided_failHere hs₁ rfl
  split
  · split
    · exact fine
    · exact fun hf => absurd hf (ne_true_of_eq_false hs)
  · exact fine

/-- A number that is wrong may go on with more digits, so that its error is not final. -/
theorem undecided_readFloat (hs : s.failed = false) :
    (readFloat s).2.failed = true → Undecided (readFloat s).2 := by
  have hs₁ : (skipBlank s).failed = false := hs
  rw [readFloat]
  dsimp only
  split
  · exact fun hf => absurd hf (ne_true_of_eq_false hs)
  split
  · exact fun _ => undecided_failHere hs₁ rfl
  split
  · exact fun hf => absurd hf (ne_true_of_eq_false hs)
  · exact fun _ => undecided_failHere hs₁ rfl

theorem undecided_number (hs : s.failed = false) :
    (Build.number tokens s).2.failed = true → Undecided (Build.number tokens s).2 := by
  rw [Build.number]
  dsimp only [tokens]
  split
  · exact fun hf => undecided_readInteger hs hf
  next hi =>
  have hs₁ : (readInteger s).2.failed = false := by simpa using hi
  split
  · exact fun hf => absurd hf (ne_true_of_eq_false hs₁)
  · exact fun _ => undecided_failHere hs₁ rfl
  · exact undecided_readFloat hs₁

/-- Where more follows, the announcement is the same. -/
theorem Announces.append {allow : Bool} {kind : Kind} {bs : Bytes} (h : Announces allow kind bs)
    (tail : Bytes) : Announces allow kind (bs ++ tail) := by
  cases h with
  | digit bs hd => exact .digit _ hd
  | minus bs hd => exact .minus _ hd
  | minusInfinity bs ha => exact .minusInfinity _ ha
  | infinity bs ha => exact .infinity _ ha
  | nan bs ha => exact .nan _ ha
  | null | true | false | string | array | object => constructor

/-- Only one kind of value is announced. -/
theorem Ready.unique {kind kind' : Kind} (h : Ready kind s) (h' : Ready kind' s) :
    kind = kind' := by
  rw [Ready] at h h'
  cases hr : rest s with
  | nil =>
      rw [hr] at h
      cases h
  | cons b bs =>
      rw [hr] at h h'
      have hk := (kindOf_eq_ok_iff (r := s.state) hr).mpr h
      rw [(kindOf_eq_ok_iff (r := s.state) hr).mpr h'] at hk
      exact (Except.ok.inj hk).symm

/-- A value behind which the document goes on is read alike when it goes on further. -/
theorem inStep_of_hands (h : InStep s t) (hs : s.failed = false) {kind : Kind} {v : Value}
    {d : Nat} {s' : Session Reader} (hready : Ready kind s)
    (hands : Build.Hands tokens (.value kind v) d s s') (hne : rest s' ≠ []) :
    ∃ t', InStep s' t' ∧ Build.Hands tokens (.value kind v) d t t' := by
  obtain ⟨node, hnode, rfl, rfl⟩ := stands_of_hands hands hs hready
  obtain ⟨tail, htail⟩ := h.rest_eq
  have hr : rest t = node.text ++ (rest s' ++ tail) := by
    rw [htail, hnode.passes.rest_eq, List.append_assoc]
  have hnode' : NodeAt node t (skip t node.text.length) := by
    refine ⟨.of_rest hr, ?_, h.options.symm ▸ hnode.within⟩
    rw [rest_skip hr]
    exact hnode.ends.append_tail hne tail
  obtain ⟨kind', ha, hands'⟩ := offers (h.failed_eq.symm.trans hs) hnode'
  have hready' : Ready kind t := by
    rw [Ready, htail, h.options]
    exact Announces.append hready tail
  obtain rfl := hready'.unique ha
  refine ⟨_, ?_, hands'⟩
  rw [hnode.passes.behind, skip, skip, h.position]
  exact h.moveTo (Slice.add_length_le hnode.passes.rest_eq h.inside)

/-- A number is read alike unless it touches the end of the shorter document. -/
theorem inStep_scalar (h : InStep s t) (hs : s.failed = false) {kind : Kind} (ha : kind ≠ .array)
    (ho : kind ≠ .object) (hready : Ready kind s)
    (hundecided : (Build.scalar tokens kind s).2.failed = true →
      Undecided (Build.scalar tokens kind s).2) :
    InStep (Build.scalar tokens kind s).2 (Build.scalar tokens kind t).2 ∨
      Undecided (Build.scalar tokens kind s).2 := by
  rcases hscalar : Build.scalar tokens kind s with ⟨v, s'⟩
  rw [hscalar] at hundecided
  cases hf : s'.failed with
  | true => exact .inr (hundecided hf)
  | false =>
      have hands := Build.hands_of_scalar hscalar hf
      by_cases hne : rest s' = []
      · obtain ⟨node, hnode, -, -⟩ := stands_of_hands hands hs hready
        exact .inr (.inr ⟨fault_eq_none hf,
          (rest_eq_nil_iff (hnode.passes.position_le h.inside)).mp hne⟩)
      · obtain ⟨t', hstep, hands'⟩ := inStep_of_hands h hs hready hands hne
        -- a scalar is built within any limit; it is the run at the lowest one that is read off
        rw [hands'.builds 0 1 _ (Nat.le_refl 0) (Build.value_scalar ha ho 0 0 t)]
        exact .inl hstep

/-- Building a scalar keeps the readers in step, or leaves the first one undecided. -/
theorem inStep_or_undecided_scalar (h : InStep s t) (hs : s.failed = false) (kind : Kind)
    (hready : Ready kind s) :
    InStep (Build.scalar tokens kind s).2 (Build.scalar tokens kind t).2 ∨
      Undecided (Build.scalar tokens kind s).2 := by
  cases kind with
  | null => exact inStep_readWord h hs _
  | true => exact inStep_readWord h hs _
  | false => exact inStep_readWord h hs _
  | string =>
      have hquote : s.state.here? = some quote :=
        here?_of_ready hready fun _ h => by cases h; rfl
      rcases keepsUp_readString h hs hquote with ⟨-, hlost⟩ | ⟨hstep, -⟩
      · exact .inr hlost
      · exact .inl hstep
  | number => exact inStep_scalar h hs (by decide) (by decide) hready (undecided_number hs)
  | infinity => exact inStep_scalar h hs (by decide) (by decide) hready (undecided_readFloat hs)
  | nan => exact inStep_scalar h hs (by decide) (by decide) hready (undecided_readFloat hs)
  | minus | array | object | other => exact .inr (undecided_failHere hs rfl)

/-! ### Whole documents -/

/-- **The operations of a reader keep it in step with the one over the longer document**, until it
is undecided. -/
theorem lockstep : Build.Lockstep tokens InStep Ready Undecided where
  failed h := h.failed_eq
  tooDeep _ h _ _ := h.failHere _
  scalar kind _ _ h hs hready := inStep_or_undecided_scalar h hs kind hready
  peek h hs := keepsUp_peek h hs
  openArray h hs hready := keepsUp_openArray h hs hready
  nextItem h hs := keepsUp_nextItem h hs
  openObject h hs hready := keepsUp_openObject h hs hready
  nextKey h hs := keepsUp_nextKey h hs
  lost_nextItem h hs := undecided_nextPart h hs closeBracket none announce
  lost_nextKey h hs := undecided_nextPart h hs closeBrace none readKey

end

/-- What must not end where it does is found by both readers. -/
theorem inStep_finish (h : InStep s t) {s' : Session Reader} (hfinish : finish s = (false, s')) :
    ∃ t', finish t = (false, t') ∧ InStep s' t' := by
  rw [finish] at hfinish
  split at hfinish
  · next hmore =>
      obtain ⟨-, rfl⟩ := Prod.mk.inj hfinish
      obtain ⟨hreq, hne⟩ := Bool.and_eq_true_iff.mp hmore
      -- a byte stands behind the blanks, so they end there in the longer document as well
      have hlt : (skipBlank s).state.position < s.state.source.size :=
        Nat.lt_of_le_of_ne (Slice.skipBlank_le h.inside) (bne_iff_ne.mp hne)
      obtain ⟨b, hb⟩ : ∃ b, (skipBlank s).state.here? = some b := by
        rw [← Option.ne_none_iff_exists', here?, ne_eq, Slice.get?_eq_none_iff]
        exact Nat.not_le.mpr hlt
      have h₁ := h.skipBlank hb
      have hsize := h.source.size_le
      have hne' : (skipBlank t).state.position ≠ (skipBlank t).state.source.size := by
        rw [h₁.position]
        exact Nat.ne_of_lt (Nat.lt_of_lt_of_le hlt hsize)
      refine ⟨failHere (skipBlank t) .trailingCharacters, ?_, h₁.failHere _⟩
      rw [finish, if_pos]
      rw [h₁.options, hreq, Bool.true_and]
      exact bne_iff_ne.mpr hne'
  · cases (Prod.mk.inj hfinish).1

/-- Where the document may end there is no error. -/
theorem fault_of_finish {s' : Session Reader} (hfinish : finish s = (true, s')) :
    s'.fault = s.fault := by
  rw [finish] at hfinish
  split at hfinish
  · cases (Prod.mk.inj hfinish).1
  · rw [← (Prod.mk.inj hfinish).2]
    rfl

/-- The document may end where it does. -/
theorem finish_of_undecided (h : Undecided s) (hs : s.failed = false) :
    finish s = (true, skipBlank s) := by
  have hend : (skipBlank s).state.position = (skipBlank s).state.source.size := by
    rcases h with ⟨e, he, -⟩ | ⟨-, hend⟩
    · rw [fault_eq_none hs] at he
      cases he
    · have hle := Slice.le_skipBlank s.state.source s.state.position
      exact Nat.le_antisymm (Slice.skipBlank_le hend.le) (hend.symm.le.trans hle)
  rw [finish, if_neg]
  simp [hend]

end Reader

open Reader

/-- **A final error stays, whatever is appended.**  If a document is rejected because of a byte that
begins no value or does not go on with a word, a control byte in a string, a letter that may not
follow a backslash, something else in the place of a key, a colon, a comma or a closing mark,
something behind the value, or too deep nesting, then every document that begins with it is rejected
with the same cause at the same offset, line and column. -/
theorem final_error_stays {document longer : Slice} {options : ReadOptions} {e : Error}
    {tail : Bytes} (h : (parse document options).fault = some e) (hfinal : e.code.isFinal = true)
    (hlonger : longer.bytes = document.bytes ++ tail) :
    parse longer options = ⟨.null, some e⟩ := by
  have hstart : InStep (start document options) (start longer options) :=
    ⟨⟨tail, hlonger⟩, rfl, rfl, Nat.zero_le _, rfl⟩
  have hbuild : InStep (build options.maxDepth (start document options)).2
      (build options.maxDepth (start longer options)).2 ∨
        Undecided (build options.maxDepth (start document options)).2 :=
    lockstep.build bounded options.maxDepth hstart rfl
  rw [parse] at h ⊢
  generalize build options.maxDepth (start document options) = x at h hbuild
  generalize build options.maxDepth (start longer options) = y at hbuild ⊢
  obtain ⟨v, s⟩ := x
  obtain ⟨w, t⟩ := y
  dsimp only at h hbuild ⊢
  cases hs : s.failed with
  | true =>
      rw [if_pos hs] at h
      replace h : s.fault = some e := h
      rcases hbuild with hstep | ⟨e', he', hno⟩ | ⟨hnone, -⟩
      · rw [if_pos (hstep.failed_eq.symm.trans hs), hstep.fault, h]
      · -- an error that more bytes may undo is none of the final ones
        obtain rfl : e' = e := Option.some.inj (he'.symm.trans h)
        rw [hno] at hfinal
        cases hfinal
      · rw [hnone] at h
        cases h
  | false =>
      rw [if_neg (by simp [hs])] at h
      rcases hfinish : finish s with ⟨ended, s'⟩
      rw [hfinish] at h
      cases ended with
      | true =>
          have hnone : s'.fault = none := (fault_of_finish hfinish).trans (fault_eq_none hs)
          replace h : s'.fault = some e := h
          rw [hnone] at h
          cases h
      | false =>
          replace h : s'.fault = some e := h
          rcases hbuild with hstep | hundecided
          · obtain ⟨t', hfinish', hstep'⟩ := inStep_finish hstep hfinish
            rw [if_neg (by simp [← hstep.failed_eq, hs]), hfinish', if_neg Bool.false_ne_true,
              hstep'.fault, h]
          -- a builder that is undecided without an error is at the end, where nothing is amiss
          · rw [finish_of_undecided hundecided hs] at hfinish
            cases (Prod.mk.inj hfinish).1

theorem final_error_stays_badEscape :
    (parse (.ofBytes 0 (Bytes.ofString "[1,\"\\q")) {}).fault = some ⟨.invalidEscape, 5, 1, 6⟩ ∧
      parse (.ofBytes 1 (Bytes.ofString "[1,\"\\q\"]")) {} =
        ⟨.null, some ⟨.invalidEscape, 5, 1, 6⟩⟩ := by
  have h : (parse (.ofBytes 0 (Bytes.ofString "[1,\"\\q")) {}).fault =
      some ⟨.invalidEscape, 5, 1, 6⟩ := rfl
  exact ⟨h, final_error_stays h rfl rfl⟩

end JsonTree
