import JsonTree.Proofs.Coherence

/-!
# Placement — where an error is reported

An error is reported at an offset, with its line and column.  The offset is that of a byte, unless
the document has ended too early or an escape names no character; and when the document has ended
too early, it is the document's end, or the opening quote of a literal that is not closed, or the
first letter of a word that is cut short (`WellPlaced`).

There is one exception.  The letters of a word are compared only if there are as many bytes left, so
a misspelt word near the end of the document (`MisspeltAt`) is told as an end that came too early,
although nothing is cut short there.

The builder over a reader goes from lexeme to lexeme (`Between`), so that every place an error is
reported at is told by the bytes from there on.

* `behind_eq`: lines and columns are counts of bytes.
* `Literal.Flawed.placed`: where an offence in a literal is reported.
* `told_peek` and its like: what each operation of a reader reports.
* `lockstep_placed`: the builder reports no error of its own elsewhere.
* `errors_are_well_placed`: the error of a whole document.
-/

namespace JsonTree

open Ascii Bytes

/-! ### Lines and columns -/

/-- The bytes behind the last newline. -/
def lastLine (bs : Bytes) : Bytes :=
  (bs.reverse.takeWhile (· != newline)).reverse

/-- **A line is counted by newlines, a column by the bytes behind the last of them.** -/
theorem LineColumn.behind_eq (bs : Bytes) :
    behind bs = ⟨1 + bs.count newline, 1 + (lastLine bs).length⟩ := by
  induction bs using List.reverseRecOn with
  | nil => rfl
  | append_singleton bs b ih =>
      rw [behind, List.foldl_append, ← behind, ih]
      by_cases hb : b = newline
      · subst hb
        simp [next, lastLine]
        omega
      · simp [next, lastLine, hb]
        omega

/-! ### Where an error belongs -/

/-- The cause is told at a byte of the document. -/
def ErrorCode.atByte : ErrorCode → Bool
  | unexpectedEnd | invalidUnicodeEscape | invalidSurrogate => false
  | _ => true

/-- Behind lexemes, at the offset, a string literal is opened that is not closed: nothing but
characters of a literal follows, up to the end or to a last backslash. -/
def OpenAt (allowNonFinite : Bool) (document : Bytes) (offset : Nat) : Prop :=
  ∃ front ps back, document = front ++ quote :: (Pieces.text ps ++ back) ∧
    Lexemes allowNonFinite front ∧ offset = front.length ∧ (∀ p ∈ ps, p.Legal) ∧
    (back = [] ∨ back = [backslash])

/-- Behind lexemes, at the offset, stands the beginning of a word, and the document ends before the
rest of it. -/
def CutAt (allowNonFinite : Bool) (document : Bytes) (offset : Nat) : Prop :=
  ∃ front back tail, tail ≠ [] ∧ back ++ tail ∈ plainWords ∧ back ≠ [] ∧ document = front ++ back ∧
    Lexemes allowNonFinite front ∧ offset = front.length

/-- Behind lexemes, at the offset, the document ends in a misspelt word. -/
def MisspeltAt (allowNonFinite : Bool) (document : Bytes) (offset : Nat) : Prop :=
  ∃ front back, document = front ++ back ∧ Lexemes allowNonFinite front ∧ offset = front.length ∧
    Misspelt back

/-- At the offset the document ends too early: it is the end, or what stands there is cut short. -/
def EndsAt (allowNonFinite : Bool) (document : Bytes) (offset : Nat) : Prop :=
  offset = document.length ∨ OpenAt allowNonFinite document offset ∨
    CutAt allowNonFinite document offset

/-- **Where a word is misspelt, nothing is cut short.** -/
theorem MisspeltAt.not_endsAt {allow : Bool} {document : Bytes} {offset : Nat}
    (h : MisspeltAt allow document offset) : ¬ EndsAt allow document offset := by
  obtain ⟨front, back, rfl, -, rfl, hmisspelt⟩ := h
  have same : ∀ {front' back' : Bytes}, front ++ back = front' ++ back' →
      front.length = front'.length → back = back' :=
    fun he hlength => (List.append_inj he hlength).2
  rintro (hend | ⟨front', ps, back', he, -, hlength, -⟩ |
    ⟨front', back', tail, -, hword, hback, he, -, hlength⟩)
  · obtain rfl : back = [] := by simpa using hend
    exact not_misspelt_nil hmisspelt
  · rw [same he hlength] at hmisspelt
    exact not_misspelt_quote _ hmisspelt
  · obtain rfl := same he hlength
    obtain ⟨word, hmem, hhead, -, hprefix⟩ := hmisspelt
    obtain rfl : word = back ++ tail := by
      refine eq_of_head? _ hmem _ hword ?_
      rw [← hhead]
      cases back with
      | nil => exact absurd rfl hback
      | cons b bs => rfl
    exact hprefix (List.prefix_append _ _)

/-- The error is reported where it belongs. -/
structure WellPlaced (source : Slice) (allowNonFinite : Bool) (e : Error) : Prop where
  located : e = Error.locate source e.code e.offset
  inside : e.offset ≤ source.size
  ended : e.code = .unexpectedEnd → EndsAt allowNonFinite source.bytes e.offset ∨
    MisspeltAt allowNonFinite source.bytes e.offset
  byte : e.code.atByte = true → e.offset < source.size

/-- At a byte of the document every cause but its end may be told. -/
theorem wellPlaced_byte {source : Slice} {allow : Bool} {code : ErrorCode} {offset : Nat}
    (h : offset < source.size) (hc : code ≠ .unexpectedEnd) :
    WellPlaced source allow (Error.locate source code offset) :=
  ⟨rfl, Nat.le_of_lt h, fun he => absurd he hc, fun _ => h⟩

/-! ### Literals -/

namespace Literal

/-- What names no character is told within the document. -/
theorem Miscoded.offset_le {i : Nat} {bs : Bytes} {f : LiteralFailure} (h : Miscoded i bs f) :
    f.code ≠ .unexpectedEnd ∧ f.code.atByte = false ∧ f.offset ≤ i + bs.length := by
  cases h with
  | digits _ => exact ⟨ErrorCode.noConfusion, rfl, Nat.le_add_right _ _⟩
  | lowFirst hlow _ =>
      refine ⟨ErrorCode.noConfusion, rfl, ?_⟩
      simp only [List.length_append, hlow.length_eq]
      omega
  | highAlone hhigh _ _ =>
      refine ⟨ErrorCode.noConfusion, rfl, ?_⟩
      simp only [List.length_append, hhigh.length_eq]
      omega
  | digitsOfLow hhigh _ _ =>
      refine ⟨ErrorCode.noConfusion, rfl, ?_⟩
      simp only [List.length_append, List.length_cons, hhigh.length_eq]
      omega
  | notLow hhigh _ hlow _ =>
      refine ⟨ErrorCode.noConfusion, rfl, ?_⟩
      simp only [List.length_append, List.length_cons, hhigh.length_eq, hlow.length_eq]
      omega

/-- Where the characters of a literal, the first of them at an index, are at fault: the document
ends among them, and that is told at the opening quote; or a byte is at fault; or what names no
character. -/
theorem Flawed.placed {opened i : Nat} {bs : Bytes} {f : LiteralFailure}
    (h : Flawed opened i bs f) :
    (f.code = .unexpectedEnd ∧ f.offset = opened ∧ ∃ ps back, (∀ p ∈ ps, p.Legal) ∧
      bs = Pieces.text ps ++ back ∧ (back = [] ∨ back = [backslash])) ∨
    f.code ≠ .unexpectedEnd ∧ f.offset ≤ i + bs.length ∧
      (f.code.atByte = true → f.offset < i + bs.length) := by
  obtain ⟨ps, back, hps, rfl, hstray | hescape⟩ := h
  · cases hstray with
    | ended => exact .inl ⟨rfl, rfl, ps, [], hps, rfl, .inl rfl⟩
    | control _ | illFormed _ _ =>
        refine .inr ⟨ErrorCode.noConfusion, ?_, fun _ => ?_⟩ <;>
          simp only [List.length_append, List.length_cons] <;> omega
  · cases hescape with
    | ended => exact .inl ⟨rfl, rfl, ps, [backslash], hps, rfl, .inr rfl⟩
    | letter _ _ =>
        refine .inr ⟨ErrorCode.noConfusion, ?_, fun _ => ?_⟩ <;>
          simp only [List.length_append, List.length_cons] <;> omega
    | code hcode =>
        obtain ⟨hend, hbyte, hle⟩ := hcode.offset_le
        refine .inr ⟨hend, ?_, fun hc => absurd hc (by simp [hbyte])⟩
        simp only [List.length_append, List.length_cons]
        omega

end Literal

/-! ### What the operations of a reader report -/

namespace Reader

variable {source : Slice} {options : ReadOptions} {s s' : Session Reader}

/-- The error on record, if there is one, is well placed. -/
def Tells (source : Slice) (options : ReadOptions) (s : Session Reader) : Prop :=
  ∀ e, s.fault = some e → WellPlaced source options.allowNonFinite e

/-- Where no error is on record, none is misplaced. -/
theorem tells_of_not_failed (hs : s.failed = false) : Tells source options s := by
  intro e he
  rw [fault_eq_none hs] at he
  cases he

/-- The reader of the document is between lexemes, with no error on record. -/
structure Clear (source : Slice) (options : ReadOptions) (s : Session Reader) : Prop where
  document : s.state.source = source
  between : Between source.bytes options s

namespace Clear

theorem failed (h : Clear source options s) : s.failed = false :=
  h.between.failed

theorem tells (h : Clear source options s) : Tells source options s :=
  tells_of_not_failed h.failed

/-- Blanks are gone over. -/
theorem skipBlank (h : Clear source options s) : Clear source options (skipBlank s) :=
  ⟨h.document, h.between.skipBlank⟩

/-- A mark is gone over. -/
theorem step (h : Clear source options s) {b : UInt8} (hb : s.state.here? = some b)
    (hmark : b ∈ markBytes) : Clear source options (step s) :=
  ⟨h.document, h.between.step hb hmark⟩

/-- The cursor is inside the document. -/
theorem position_le (h : Clear source options s) : s.state.position ≤ source.size := by
  obtain ⟨front, hbytes, hposition, -⟩ := h.between.lexemes
  rw [hposition, ← source.length_bytes, hbytes, List.length_append]
  exact Nat.le_add_right _ _

/-- Where a byte stands the cursor is before the end. -/
theorem position_lt (h : Clear source options s) {b : UInt8} (hb : s.state.here? = some b) :
    s.state.position < source.size :=
  h.document ▸ Slice.lt_size_of_get? hb

/-- A well-placed error is put on record. -/
theorem tells_failAt (h : Clear source options s) {code : ErrorCode} {offset : Nat}
    (he : WellPlaced source options.allowNonFinite (Error.locate source code offset)) :
    Tells source options (failAt s code offset) := by
  intro e hfault
  rw [fault_failAt h.failed, h.document] at hfault
  exact Option.some.inj hfault ▸ he

/-- A cause told of the byte at the cursor. -/
theorem tells_here (h : Clear source options s) {b : UInt8} (hb : s.state.here? = some b)
    {code : ErrorCode} (hc : code ≠ .unexpectedEnd) : Tells source options (failHere s code) :=
  h.tells_failAt (wellPlaced_byte (h.position_lt hb) hc)

/-- The end of the document, told where it is. -/
theorem tells_end (h : Clear source options s) (hb : s.state.here? = none) :
    Tells source options (failHere s .unexpectedEnd) := by
  have hend : s.state.position = source.size :=
    Nat.le_antisymm h.position_le (h.document ▸ (Slice.get?_eq_none_iff _ _).mp hb)
  exact h.tells_failAt ⟨rfl, h.position_le, fun _ => .inl (.inl (hend.trans source.length_bytes.symm)),
    fun hc => absurd hc Bool.false_ne_true⟩

end Clear

/-- Telling what comes next, the reader tells of the end of the document or of a byte. -/
theorem told_peek (h : Clear source options s) : Tells source options (peek s).2 := by
  have h₁ := h.skipBlank
  rw [peek]
  split
  · next hb => exact h₁.tells_end hb
  next b hb =>
    split
    · exact h₁.tells
    next code hkind =>
      rcases of_kindOf_eq_error hkind with rfl | ⟨rfl, -⟩
      · exact h₁.tells_here hb ErrorCode.noConfusion
      · exact h₁.tells_here hb ErrorCode.noConfusion

/-- A word that is cut short or misspelt is told at its first letter. -/
theorem told_readWord (h : Clear source options s) {word : Bytes} (hmem : word ∈ plainWords)
    {b : UInt8} (hb : s.state.here? = some b) (hhead : word.head? = some b) :
    Tells source options (readWord word s) := by
  rw [readWord]
  split
  · next hshort =>
      obtain ⟨front, hbytes, hposition, hfront⟩ := h.between.lexemes
      have hhere : (rest s).head? = some b := by rw [← here?_eq, hb]
      have hlength : (rest s).length < word.length := by
        have hle := h.position_le
        rw [← h.document] at hle
        rw [rest, Slice.length_rest]
        omega
      refine h.tells_failAt
        ⟨rfl, h.position_le, fun _ => ?_, fun hc => absurd hc Bool.false_ne_true⟩
      by_cases hprefix : rest s <+: word
      · obtain ⟨tail, rfl⟩ := hprefix
        refine .inl (.inr (.inr ⟨front, rest s, tail, ?_, hmem, ?_, hbytes, hfront, hposition⟩))
        · rintro rfl
          rw [List.append_nil] at hlength
          exact Nat.lt_irrefl _ hlength
        · intro hnil
          rw [hnil] at hhere
          cases hhere
      · exact .inr ⟨front, rest s, hbytes, hfront, hposition, word, hmem, hhere.trans hhead.symm,
          hlength, hprefix⟩
  split
  · exact tells_of_not_failed h.failed
  · exact h.tells_here hb ErrorCode.noConfusion

/-- A literal that is not closed is told at its quote. -/
theorem told_readString (h : Clear source options s) (hq : s.state.here? = some quote) :
    Tells source options (readString s).2 := by
  rcases exists_literal_or_flaw hq with ⟨l, back, hr⟩ | ⟨f, hflaw⟩
  · rw [readString_of_literal h.between.fault hr]
    exact tells_of_not_failed h.failed
  rw [readString_of_flawed h.between.fault hq hflaw]
  intro e he
  obtain rfl := Option.some.inj he
  rw [h.document]
  obtain ⟨front, hbytes, hposition, hfront⟩ := h.between.lexemes
  have hrest : rest s = quote :: s.state.source.rest (s.state.position + 1) :=
    Slice.rest_eq_cons_of_get? hq
  have hsize : source.size =
      s.state.position + 1 + (s.state.source.rest (s.state.position + 1)).length := by
    rw [← source.length_bytes, hbytes, hrest, hposition, List.length_append, List.length_cons]
    omega
  rcases hflaw.placed with ⟨hcode, hoffset, ps, back, hps, hr, hback⟩ | ⟨hcode, hle, hlt⟩
  · refine ⟨rfl, ?_, fun _ => .inl (.inr (.inl ?_)), fun hc => ?_⟩
    · rw [hoffset]
      exact h.position_le
    · rw [hrest, hr] at hbytes
      exact ⟨front, ps, back, hbytes, hfront, hoffset.trans hposition, hps, hback⟩
    · rw [hcode] at hc
      cases hc
  · refine ⟨rfl, ?_, fun he => absurd he hcode, fun hc => ?_⟩
    · rw [hsize]
      exact hle
    · rw [hsize]
      exact hlt hc

section

variable {α : Type} {closing : UInt8} {ended : α}

/-- Entering a container tells where reading its first part does. -/
theorem told_firstPart {first : Session Reader → α × Session Reader}
    (h : Clear source options s)
    (hfirst : ∀ {s}, Clear source options s → Tells source options (first s).2) :
    Tells source options (firstPart closing ended first s).2 := by
  have h₁ := h.skipBlank
  rw [firstPart]
  split
  · exact tells_of_not_failed h₁.failed
  · exact hfirst h₁

/-- Going on in a container, the reader tells of the end, of the byte behind a part, or of the next
part. -/
theorem told_nextPart {next : Session Reader → α × Session Reader}
    (h : Clear source options s)
    (hnext : ∀ {s}, Clear source options s → Tells source options (next s).2) :
    Tells source options (nextPart closing ended next s).2 := by
  have h₁ := h.skipBlank
  rw [nextPart]
  split
  · next hb => exact h₁.tells_end hb
  next b hb =>
    split
    · next hcomma =>
        obtain rfl := beq_iff_eq.mp hcomma
        exact hnext (h₁.step hb (by decide))
    split
    · exact tells_of_not_failed h₁.failed
    · -- told of the byte that the cursor has just gone over
      have hs : (step (skipBlank s)).failed = false := h₁.failed
      have hsource : (step (skipBlank s)).state.source = source := h₁.document
      intro e he
      have hfault := (fault_failAt hs _ _).symm.trans he
      rw [hsource] at hfault
      exact Option.some.inj hfault ▸ wellPlaced_byte (h₁.position_lt hb) ErrorCode.noConfusion

end

theorem told_openArray (h : Clear source options s) (hb : s.state.here? = some openBracket) :
    Tells source options (openArray s).2 := by
  rw [openArray, if_pos hb]
  exact told_firstPart (h.step hb (by decide)) told_peek

theorem told_nextItem (h : Clear source options s) : Tells source options (nextItem s).2 :=
  told_nextPart h told_peek

/-- Reading a key, the reader tells of the string, or of the byte where the colon is missing. -/
theorem told_readKey (h : Clear source options s) : Tells source options (readKey s).2 := by
  have h₁ := h.skipBlank
  rw [readKey]
  dsimp only
  split
  · next hb => exact h₁.tells_end hb
  next b hb =>
    split
    · next hquote =>
        obtain rfl := beq_iff_eq.mp hquote
        have htold := told_readString h₁ hb
        split
        · exact htold
        next hs₂ =>
          have h₂ : Clear source options (readString (Reader.skipBlank s)).2 := by
            refine ⟨(reaches_readString _).source.trans h₁.document, ?_⟩
            rcases sound_readString h₁.between hb with hbetween | ⟨e, he, -⟩
            · exact hbetween
            · exact absurd (by rw [Session.failed, he]; rfl) hs₂
          have h₃ := h₂.skipBlank
          split
          · next hend => exact h₃.tells_end hend
          next c hc =>
            split
            · exact tells_of_not_failed h₃.failed
            · exact h₃.tells_here hc ErrorCode.noConfusion
    · exact h₁.tells_here hb ErrorCode.noConfusion

theorem told_openObject (h : Clear source options s) (hb : s.state.here? = some openBrace) :
    Tells source options (openObject s).2 := by
  rw [openObject, if_pos hb]
  exact told_firstPart (h.step hb (by decide)) told_readKey

theorem told_nextKey (h : Clear source options s) : Tells source options (nextKey s).2 :=
  told_nextPart h told_readKey

/-! ### Numbers -/

/-- Some byte stands where a value has been announced. -/
theorem Ready.exists_here {kind : Kind} (h : Ready kind s) : ∃ b, s.state.here? = some b := by
  rw [here?_eq]
  rw [Ready] at h
  generalize rest s = bs at h ⊢
  cases h <;> exact ⟨_, rfl⟩

/-- A number that is wrong is told of where it begins. -/
theorem told_readInteger (h : Clear source options s) {kind : Kind} (hready : Ready kind s) :
    Tells source options (readInteger s).2 := by
  obtain ⟨b, hb⟩ := hready.exists_here
  rw [readInteger, skipBlank_self hready.stops]
  split
  · exact h.tells
  split
  · exact h.tells_here hb ErrorCode.noConfusion
  split
  · split
    · exact h.tells
    · exact tells_of_not_failed h.failed
  · exact h.tells

/-- A number that is wrong or too large is told of where it begins. -/
theorem told_readFloat (h : Clear source options s) {kind : Kind} (hready : Ready kind s) :
    Tells source options (readFloat s).2 := by
  obtain ⟨b, hb⟩ := hready.exists_here
  rw [readFloat, skipBlank_self hready.stops]
  split
  · exact tells_of_not_failed h.failed
  split
  · exact h.tells_here hb ErrorCode.noConfusion
  dsimp only
  split
  · exact tells_of_not_failed h.failed
  · exact h.tells_here hb ErrorCode.noConfusion

/-! ### The builder over a reader -/

/-- The reader of the document is between lexemes, or an error is on record; and that is well
placed. -/
structure Placed (source : Slice) (options : ReadOptions) (s : Session Reader) : Prop where
  document : s.state.source = source
  sound : Sound source.bytes options s
  tells : Tells source options s

namespace Placed

/-- While no error is on record the reader is between lexemes. -/
theorem clear (h : Placed source options s) (hs : s.failed = false) : Clear source options s := by
  refine ⟨h.document, ?_⟩
  rcases h.sound with hbetween | ⟨e, he, -⟩
  · exact hbetween
  · rw [fault_eq_none hs] at he
    cases he

end Placed

/-- A sound operation that tells well and only moves forward leaves the reader well placed. -/
theorem Clear.placed (h : Clear source options s) (hr : Reaches s.state s'.state)
    (hsound : Sound source.bytes options s') (htells : Tells source options s') :
    Placed source options s' :=
  ⟨hr.source.trans h.document, hsound, htells⟩

/-- An error of the builder's own, told where a value has been announced. -/
theorem Clear.placed_fail (h : Clear source options s) {kind : Kind} (hready : Ready kind s)
    {code : ErrorCode} (hc : code.ofWrongToken = false) (hend : code ≠ .unexpectedEnd) :
    Placed source options (Build.fail tokens s code) := by
  obtain ⟨b, hb⟩ := hready.exists_here
  exact ⟨h.document, h.between.failHere hc, h.tells_here hb hend⟩

/-- Building a number, the reader stays well placed. -/
theorem placed_number (h : Clear source options s) (hready : Ready .number s) :
    Placed source options (Build.number tokens s).2 := by
  have h₁ : Placed source options (readInteger s).2 :=
    h.placed (reaches_readInteger s) (sound_readInteger h.between) (told_readInteger h hready)
  have hstays : (readInteger s).1 = .tooLarge → (readInteger s).2 = s := by
    rw [readInteger, skipBlank_self hready.stops]
    split
    · intro hn
      cases hn
    split
    · intro hn
      cases hn
    split
    · split
      · exact fun _ => rfl
      · intro hn
        cases hn
    · intro hn
      cases hn
  rw [Build.number]
  dsimp only [tokens]
  split
  · exact h₁
  next hf =>
    have hs₁ : (readInteger s).2.failed = false := by simpa using hf
    split
    · exact h₁
    next htoken =>
      rw [hstays htoken]
      exact h.placed_fail hready rfl ErrorCode.noConfusion
    next htoken =>
      -- what is no integer is left where it stands
      have hsame : (readInteger s).2 = s :=
        ((readInteger_eq_notInteger_iff h.failed hready.stops).mp ⟨Prod.ext htoken rfl, hs₁⟩).1
      rw [hsame]
      exact h.placed (reaches_readFloat s) (sound_readFloat h.between) (told_readFloat h hready)

/-- Building a scalar, the reader stays well placed. -/
theorem placed_scalar (h : Clear source options s) {kind : Kind} (harray : kind ≠ .array)
    (hobject : kind ≠ .object) (hready : Ready kind s) :
    Placed source options (Build.scalar tokens kind s).2 := by
  have word : ∀ {w : Bytes} {b : UInt8}, w ∈ plainWords → s.state.here? = some b →
      w.head? = some b → Placed source options (readWord w s) := by
    intro w b hmem hb hhead
    exact h.placed (reaches_readWord w s) (sound_readWord h.between hmem hb hhead)
      (told_readWord h hmem hb hhead)
  have float : Placed source options (readFloat s).2 :=
    h.placed (reaches_readFloat s) (sound_readFloat h.between) (told_readFloat h hready)
  cases kind with
  | null => exact word (by decide) (here?_of_ready hready fun _ ha => by cases ha; rfl) rfl
  | true => exact word (by decide) (here?_of_ready hready fun _ ha => by cases ha; rfl) rfl
  | false => exact word (by decide) (here?_of_ready hready fun _ ha => by cases ha; rfl) rfl
  | string =>
      have hq : s.state.here? = some quote :=
        here?_of_ready hready fun _ ha => by cases ha; rfl
      exact h.placed (reaches_readString s) (sound_readString h.between hq) (told_readString h hq)
  | number => exact placed_number h hready
  | infinity | nan => exact float
  | array => exact absurd rfl harray
  | object => exact absurd rfl hobject
  | minus | other => cases hready

/-- **Whatever the builder comes upon is well placed.** -/
theorem lockstep_placed (source : Slice) (options : ReadOptions) :
    Build.Lockstep tokens (fun s t => s = t ∧ Placed source options s) Ready fun _ => False where
  failed h := congrArg Session.failed h.1
  tooDeep kind h hs hready :=
    ⟨congrArg (Build.fail tokens · .nestingTooDeep) h.1,
      (h.2.clear hs).placed_fail hready rfl ErrorCode.noConfusion⟩
  scalar kind harray hobject h hs hready := by
    obtain ⟨rfl, h⟩ := h
    exact .inl ⟨rfl, placed_scalar (h.clear hs) harray hobject hready⟩
  peek h hs := by
    obtain ⟨rfl, h⟩ := h
    have hc := h.clear hs
    exact .inr ⟨⟨rfl, hc.placed (reaches_peek _) (sound_peek hc.between) (told_peek hc)⟩,
      fun hf => ⟨rfl, Begins.ready ((peek_eq_iff hs).mp ⟨rfl, hf⟩)⟩⟩
  openArray h hs hready := by
    obtain ⟨rfl, h⟩ := h
    have hc := h.clear hs
    have hb := here?_of_ready hready fun _ ha => by cases ha; rfl
    exact .inr ⟨⟨rfl, hc.placed (reaches_openArray _) (sound_openArray hc.between hb)
      (told_openArray hc hb)⟩, fun hf => ⟨rfl, ready_openArray hs rfl hf⟩⟩
  nextItem h hs := by
    obtain ⟨rfl, h⟩ := h
    have hc := h.clear hs
    exact .inr ⟨⟨rfl, hc.placed (reaches_nextItem _) (sound_nextItem hc.between)
      (told_nextItem hc)⟩, fun hf => ⟨rfl, ready_nextItem hs rfl hf⟩⟩
  openObject h hs hready := by
    obtain ⟨rfl, h⟩ := h
    have hc := h.clear hs
    have hb := here?_of_ready hready fun _ ha => by cases ha; rfl
    exact .inr ⟨⟨rfl, hc.placed (reaches_openObject _) (sound_openObject hc.between hb)
      (told_openObject hc hb)⟩, fun _ => rfl⟩
  nextKey h hs := by
    obtain ⟨rfl, h⟩ := h
    have hc := h.clear hs
    exact .inr ⟨⟨rfl, hc.placed (reaches_nextKey _) (sound_nextKey hc.between)
      (told_nextKey hc)⟩, fun _ => rfl⟩
  lost_nextItem h _ := h.elim
  lost_nextKey h _ := h.elim

/-- Building a value, the reader stays well placed. -/
theorem placed_build (source : Slice) (options : ReadOptions) (limit : Nat) :
    Placed source options (build limit (start source options)).2 := by
  have hbetween := between_start source options
  have hstart : Placed source options (start source options) :=
    ⟨rfl, .inl hbetween, tells_of_not_failed rfl⟩
  rcases (lockstep_placed source options).build bounded limit ⟨rfl, hstart⟩ rfl with ⟨-, h⟩ | h
  · exact h
  · exact h.elim

/-- What stands behind the value is told at its first byte. -/
theorem told_finish (h : Clear source options s) : Tells source options (finish s).2 := by
  have h₁ := h.skipBlank
  rw [finish]
  split
  · next hend =>
      have hlt : (skipBlank s).state.position < source.size := by
        rw [Bool.and_eq_true, bne_iff_ne, h₁.document] at hend
        exact Nat.lt_of_le_of_ne h₁.position_le hend.2
      exact h₁.tells_failAt (wellPlaced_byte hlt ErrorCode.noConfusion)
  · exact h₁.tells

end Reader

/-! ### Whole documents -/

open Reader in
/-- The error of a parse is well placed, be it the builder's or that of what follows the value. -/
theorem wellPlaced_of_parse {source : Slice} {options : ReadOptions} {e : Error}
    (h : (parse source options).fault = some e) :
    WellPlaced source options.allowNonFinite e := by
  have hplaced := placed_build source options options.maxDepth
  rw [parse] at h
  generalize build options.maxDepth (start source options) = x at h hplaced
  obtain ⟨v, s⟩ := x
  dsimp only at h hplaced
  cases hs : s.failed with
  | true =>
      rw [if_pos hs] at h
      exact hplaced.tells e h
  | false =>
      rw [if_neg (by simp [hs])] at h
      have htold := told_finish (hplaced.clear hs)
      rcases hfinish : finish s with ⟨ended, s'⟩
      rw [hfinish] at h htold
      cases ended <;> exact htold e h

/-- **Errors are well placed.**  The error of a document that is not read has an offset in the
document or at its end.  Its line is one more than there are newlines before the offset, and its
column one more than there are bytes behind the last of them.  If the document is said to have ended
too early, the offset is the document's end, or that of the opening quote of a literal that is not
closed, or that of the first letter of a word that is cut short, exactly when no misspelt word
stands there.  For any other cause but the two of an escape that names no character, the offset is
that of a byte. -/
theorem errors_are_well_placed {source : Slice} {options : ReadOptions} {e : Error}
    (h : (parse source options).fault = some e) :
    e.offset ≤ source.size ∧
    e.line = 1 + (source.bytes.take e.offset).count newline ∧
    e.column = 1 + (lastLine (source.bytes.take e.offset)).length ∧
    (e.code = .unexpectedEnd →
      ((e.offset = source.size ∨ OpenAt options.allowNonFinite source.bytes e.offset ∨
        CutAt options.allowNonFinite source.bytes e.offset) ↔
          ¬ MisspeltAt options.allowNonFinite source.bytes e.offset)) ∧
    (e.code ∉ [.unexpectedEnd, .invalidUnicodeEscape, .invalidSurrogate] →
      e.offset < source.size) := by
  have hplaced := wellPlaced_of_parse h
  have hlocated := hplaced.located
  rw [Error.locate, Slice.ahead_eq_take, Slice.rest_zero, LineColumn.behind_eq] at hlocated
  refine ⟨hplaced.inside, congrArg Error.line hlocated, congrArg Error.column hlocated,
    fun hc => ?_, fun hc => hplaced.byte ?_⟩
  · rw [← source.length_bytes]
    exact ⟨fun hends hmisspelt => hmisspelt.not_endsAt hends,
      fun hspelt => (hplaced.ended hc).resolve_right hspelt⟩
  · revert hc
    cases e.code <;> decide

/-- A word that is cut short on the second line, and a comma that is missing. -/
theorem errors_are_well_placed_secondLine :
    (∃ e, (parse (.ofBytes 0 (Bytes.ofString "[0,\ntru")) {}).fault = some e ∧ e.offset ≤ 7 ∧
      e.line = 1 + (([0x5B, 0x30, 0x2C, 0x0A] : Bytes).count newline) ∧
      e.column = 1 + (lastLine [0x5B, 0x30, 0x2C, 0x0A]).length ∧
      (e.offset = 7 ∨ OpenAt false (Bytes.ofString "[0,\ntru") e.offset ∨
        CutAt false (Bytes.ofString "[0,\ntru") e.offset)) ∧
    ∃ e, (parse (.ofBytes 0 (Bytes.ofString "[1 2]")) {}).fault = some e ∧ e.offset < 5 := by
  have hcut : (parse (.ofBytes 0 (Bytes.ofString "[0,\ntru")) {}).fault =
      some ⟨.unexpectedEnd, 4, 2, 1⟩ := rfl
  have hcomma : (parse (.ofBytes 0 (Bytes.ofString "[1 2]")) {}).fault =
      some ⟨.expectedCommaOrEnd, 3, 1, 4⟩ := rfl
  obtain ⟨hle, hline, hcolumn, hended, -⟩ := errors_are_well_placed hcut
  obtain ⟨-, -, -, -, hbyte⟩ := errors_are_well_placed hcomma
  refine ⟨⟨_, hcut, hle, hline, hcolumn, ?_⟩, _, hcomma, hbyte (by decide)⟩
  rw [Slice.bytes_ofBytes] at hended
  refine (hended rfl).mpr ?_
  rintro ⟨front, back, he, -, hlength, hmisspelt⟩
  have he : Bytes.ofString "[0,\n" ++ Bytes.ofString "tru" = front ++ back := he
  obtain rfl := (List.append_inj he hlength).2
  exact absurd hmisspelt (by decide)

/-- A misspelt word is told as an end that came too early, although the array is closed: the offset
is neither the end of the document nor that of a literal which is not closed or is cut short. -/
theorem misspelt_word_is_not_cut_short :
    (parse (.ofBytes 0 (Bytes.ofString "[nu]")) {}).fault = some ⟨.unexpectedEnd, 1, 1, 2⟩ ∧
      ¬ (1 = (Bytes.ofString "[nu]").length ∨ OpenAt false (Bytes.ofString "[nu]") 1 ∨
        CutAt false (Bytes.ofString "[nu]") 1) := by
  have hmisspelt : MisspeltAt false (Bytes.ofString "[nu]") 1 :=
    ⟨[openBracket], Bytes.ofString "nu]", rfl, .append .none (.mark (by decide)), rfl, by decide⟩
  exact ⟨rfl, hmisspelt.not_endsAt⟩

end JsonTree
