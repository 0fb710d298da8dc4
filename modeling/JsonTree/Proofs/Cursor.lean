import JsonTree.Reader.Progress
import JsonTree.Proofs.Grammar

/-!
# The cursor — what each operation of a reader finds

For every operation of a reader: it records no error exactly when the grammar's next token stands at
the cursor, behind the blanks it goes over, and then it puts the cursor behind the token and answers
what the token is.  Each is stated about the bytes that are left (`rest`) and about how many of them
are gone over (`skip`).
-/

namespace JsonTree

namespace Reader

open Ascii Bytes

/-- The bytes that are left. -/
def rest (s : Session Reader) : Bytes :=
  s.state.source.rest s.state.position

/-- To a fresh reader the whole document is left. -/
theorem rest_start (source : Slice) (options : ReadOptions) :
    rest (start source options) = source.bytes :=
  Slice.rest_zero source

/-- Goes over bytes. -/
def skip (s : Session Reader) (n : Nat) : Session Reader :=
  moveTo s (s.state.position + n)

@[simp] theorem failed_skip (s : Session Reader) (n : Nat) : (skip s n).failed = s.failed := rfl

@[simp] theorem source_skip (s : Session Reader) (n : Nat) :
    (skip s n).state.source = s.state.source := rfl

@[simp] theorem options_skip (s : Session Reader) (n : Nat) :
    (skip s n).state.options = s.state.options := rfl

@[simp] theorem skip_zero (s : Session Reader) : skip s 0 = s := rfl

/-- Moving on twice is moving on by the sum. -/
theorem skip_skip (s : Session Reader) (m n : Nat) : skip (skip s m) n = skip s (m + n) := by
  rw [skip, skip, skip, ← Nat.add_assoc]
  rfl

/-- Behind what has been gone over, the rest of the rest is left. -/
theorem rest_skip {s : Session Reader} {front back : Bytes} (h : rest s = front ++ back) :
    rest (skip s front.length) = back :=
  Slice.rest_add_length h

/-- The byte at the cursor is the first one left. -/
theorem here?_eq (s : Session Reader) : s.state.here? = (rest s).head? :=
  Slice.get?_eq_head? _ _

/-- The bytes stand at the cursor, and the second cursor behind them. -/
structure Passes (front : Bytes) (s s' : Session Reader) : Prop where
  stands : ∃ back, rest s = front ++ back
  behind : s' = skip s front.length

namespace Passes

variable {s s₁ s' : Session Reader} {front back : Bytes}

theorem rest_eq (h : Passes front s s') : rest s = front ++ rest s' := by
  obtain ⟨back, hr⟩ := h.stands
  rw [h.behind, rest_skip hr, hr]

theorem failed_eq (h : Passes front s s') : s'.failed = s.failed := by
  rw [h.behind, failed_skip]

theorem source_eq (h : Passes front s s') : s'.state.source = s.state.source := by
  rw [h.behind, source_skip]

theorem options_eq (h : Passes front s s') : s'.state.options = s.state.options := by
  rw [h.behind, options_skip]

/-- A reader may be moved over whatever stands at its cursor. -/
theorem of_rest (h : rest s = front ++ back) : Passes front s (skip s front.length) :=
  ⟨⟨back, h⟩, rfl⟩

/-- Passing over one text and then another is passing over both in a row. -/
theorem append (h : Passes front s s₁) (h' : Passes back s₁ s') : Passes (front ++ back) s s' := by
  refine ⟨⟨rest s', ?_⟩, ?_⟩
  · rw [h.rest_eq, h'.rest_eq, List.append_assoc]
  · rw [h'.behind, h.behind, skip_skip, List.length_append]

/-- Bytes are gone over one part after the other. -/
theorem split (h : Passes (front ++ back) s s') :
    ∃ s₁, Passes front s s₁ ∧ Passes back s₁ s' := by
  obtain ⟨last, hr⟩ := h.stands
  rw [List.append_assoc] at hr
  refine ⟨skip s front.length, of_rest hr, ⟨last, rest_skip hr⟩, ?_⟩
  rw [h.behind, skip_skip, List.length_append]

/-- One step, and then the rest of the text. -/
theorem cons {b : UInt8} (h : rest s = b :: back) (h' : Passes front (step s) s') :
    Passes (b :: front) s s' := by
  have hb : Passes [b] s (step s) := ⟨⟨back, h⟩, rfl⟩
  exact hb.append h'

/-- Passing over a nonempty text begins with one step. -/
theorem uncons {b : UInt8} (h : Passes (b :: front) s s') :
    rest s = b :: (front ++ rest s') ∧ Passes front (step s) s' := by
  obtain ⟨s₁, hb, hfront⟩ : ∃ s₁, Passes [b] s s₁ ∧ Passes front s₁ s' := split h
  obtain rfl : s₁ = step s := hb.behind
  exact ⟨h.rest_eq, hfront⟩

/-- Up to a byte, and from there on. -/
theorem split_mark {mark : UInt8} (h : Passes (front ++ mark :: back) s s') :
    ∃ s₁, Passes (front ++ [mark]) s s₁ ∧ Passes back s₁ s' := by
  have he : front ++ mark :: back = (front ++ [mark]) ++ back := by simp
  exact (he ▸ h).split

end Passes

/-- An error at the cursor is on record, whether it or an earlier one. -/
theorem failed_failHere (s : Session Reader) (code : ErrorCode) :
    (failHere s code).failed = true :=
  Fault.isSome_record _ _ _ _

/-- An error at an offset is on record, whether it or an earlier one. -/
theorem failed_failAt (s : Session Reader) (code : ErrorCode) (offset : Nat) :
    (failAt s code offset).failed = true :=
  Fault.isSome_record _ _ _ _

theorem fault_eq_none {s : Session Reader} (hs : s.failed = false) : s.fault = none := by
  rwa [Session.failed, Option.isSome_eq_false_iff, Option.isNone_iff_eq_none] at hs

/-- Where no error is on record, the new one is put there with its line and column. -/
theorem fault_failAt {s : Session Reader} (hs : s.failed = false) (code : ErrorCode)
    (offset : Nat) :
    (failAt s code offset).fault = some (Error.locate s.state.source code offset) := by
  rw [failAt, Session.fail, fault_eq_none hs]
  rfl

/-- Where no error is on record, the new one is put there with the cursor's line and column. -/
theorem fault_failHere {s : Session Reader} (hs : s.failed = false) (code : ErrorCode) :
    (failHere s code).fault = some (Error.locate s.state.source code s.state.position) :=
  fault_failAt hs code _

/-! ### Blanks -/

/-- The blanks at the front. -/
def blanksOf (bs : Bytes) : Blanks :=
  ⟨bs.takeWhile isBlank, of_mem_takeWhile⟩

/-- Blanks are gone over up to the first byte that is none. -/
theorem skipBlank_eq {s : Session Reader} (w : Blanks) {back : Bytes} (h : rest s = w.text ++ back)
    (hb : Stops isBlank back) : skipBlank s = skip s w.text.length := by
  have hw : ((s.state.source.rest s.state.position).takeWhile isBlank) = w.text := by
    have hr : s.state.source.rest s.state.position = w.text ++ back := h
    rw [hr, takeWhile_run w.blank hb]
  rw [skipBlank, skip, Slice.skipBlank_eq, hw]

/-- Going over blanks always finds some, or none, and stops where there are no more. -/
theorem exists_skipBlank (s : Session Reader) :
    ∃ (w : Blanks) (back : Bytes), rest s = w.text ++ back ∧ Stops isBlank back ∧
      skipBlank s = skip s w.text.length := by
  have h : rest s = (blanksOf (rest s)).text ++ (rest s).dropWhile isBlank :=
    List.takeWhile_append_dropWhile.symm
  exact ⟨blanksOf (rest s), _, h, stops_dropWhile _ _, skipBlank_eq _ h (stops_dropWhile _ _)⟩

/-- Where no blank stands, none is gone over. -/
theorem skipBlank_self {s : Session Reader} (h : Stops isBlank (rest s)) : skipBlank s = s := by
  have hrest : rest s = Blanks.none.text ++ rest s := rfl
  exact skipBlank_eq Blanks.none hrest h

/-! ### What comes next -/

/-- What the first bytes of a value announce. -/
inductive Announces (allowNonFinite : Bool) : Kind → Bytes → Prop where
  | null (bs : Bytes) : Announces allowNonFinite .null ('n'.toUInt8 :: bs)
  | true (bs : Bytes) : Announces allowNonFinite .true ('t'.toUInt8 :: bs)
  | false (bs : Bytes) : Announces allowNonFinite .false ('f'.toUInt8 :: bs)
  | string (bs : Bytes) : Announces allowNonFinite .string (quote :: bs)
  | array (bs : Bytes) : Announces allowNonFinite .array (openBracket :: bs)
  | object (bs : Bytes) : Announces allowNonFinite .object (openBrace :: bs)
  | digit {b : UInt8} (bs : Bytes) : isDigit b = true → Announces allowNonFinite .number (b :: bs)
  | minus {b : UInt8} (bs : Bytes) : isDigit b = true →
      Announces allowNonFinite .number (Ascii.minus :: b :: bs)
  | minusInfinity (bs : Bytes) : allowNonFinite = Bool.true →
      Announces allowNonFinite .number (Ascii.minus :: 'I'.toUInt8 :: bs)
  | infinity (bs : Bytes) : allowNonFinite = Bool.true →
      Announces allowNonFinite .infinity ('I'.toUInt8 :: bs)
  | nan (bs : Bytes) : allowNonFinite = Bool.true →
      Announces allowNonFinite .nan ('N'.toUInt8 :: bs)

theorem isBlank_of_isDigit : ∀ b : UInt8, isDigit b = true → isBlank b = false :=
  forall_byte (by decide)

/-- No value begins with a blank. -/
theorem Announces.stops {allow : Bool} {kind : Kind} {bs : Bytes} (h : Announces allow kind bs) :
    Stops isBlank bs := by
  cases h with
  | digit bs hd => exact (stops_cons _ _ _).mpr (isBlank_of_isDigit _ hd)
  | _ => exact (stops_cons _ _ _).mpr rfl

/-- A digit is none of the other bytes that begin a value. -/
theorem ne_of_isDigit : ∀ b : UInt8, isDigit b = true →
    b ≠ 'n'.toUInt8 ∧ b ≠ 't'.toUInt8 ∧ b ≠ 'f'.toUInt8 ∧ b ≠ quote ∧ b ≠ openBracket ∧
      b ≠ openBrace ∧ b ≠ Ascii.minus ∧ b ≠ 'I'.toUInt8 ∧ b ≠ 'N'.toUInt8 :=
  forall_byte (by decide)

/-- The kind that a first byte is resolved to is the kind of value that begins there. -/
theorem kindOf_eq_ok_iff {r : Reader} {b : UInt8} {bs : Bytes} {kind : Kind}
    (h : r.source.rest r.position = b :: bs) :
    r.kindOf b = .ok kind ↔ Announces r.options.allowNonFinite kind (b :: bs) := by
  have hnext : r.source.get? (r.position + 1) = bs.head? := by
    rw [Slice.get?_eq_head?, Slice.rest_add, h]
    rfl
  rw [kindOf, hnext]
  generalize r.options.allowNonFinite = allow
  constructor
  · -- the tests in their order
    intro hk
    split at hk
    · next hb => rw [beq_iff_eq.mp hb, ← Except.ok.inj hk]; exact .null bs
    split at hk
    · next hb => rw [beq_iff_eq.mp hb, ← Except.ok.inj hk]; exact .true bs
    split at hk
    · next hb => rw [beq_iff_eq.mp hb, ← Except.ok.inj hk]; exact .false bs
    split at hk
    · next hb => rw [beq_iff_eq.mp hb, ← Except.ok.inj hk]; exact .string bs
    split at hk
    · next hb => rw [beq_iff_eq.mp hb, ← Except.ok.inj hk]; exact .array bs
    split at hk
    · next hb => rw [beq_iff_eq.mp hb, ← Except.ok.inj hk]; exact .object bs
    split at hk
    · next hb =>
        obtain rfl := beq_iff_eq.mp hb
        cases bs with
        | nil => cases hk
        | cons c bs =>
            dsimp only [List.head?_cons] at hk
            split at hk
            · next hc =>
                obtain rfl := Except.ok.inj hk
                simp only [Bool.or_eq_true, Bool.and_eq_true, beq_iff_eq] at hc
                rcases hc with hc | ⟨ha, rfl⟩
                · exact .minus bs hc
                · exact .minusInfinity bs ha
            · cases hk
    split at hk
    · next hb =>
        simp only [Bool.and_eq_true, beq_iff_eq] at hb
        obtain ⟨ha, rfl⟩ := hb
        rw [← Except.ok.inj hk]
        exact .infinity bs ha
    split at hk
    · next hb =>
        simp only [Bool.and_eq_true, beq_iff_eq] at hb
        obtain ⟨ha, rfl⟩ := hb
        rw [← Except.ok.inj hk]
        exact .nan bs ha
    split at hk
    · next hb => rw [← Except.ok.inj hk]; exact .digit bs hb
    · cases hk
  · intro hk
    cases hk with
    | digit bs hd =>
        -- digits are looked for last
        obtain ⟨h₁, h₂, h₃, h₄, h₅, h₆, h₇, h₈, h₉⟩ := ne_of_isDigit b hd
        simp [h₁, h₂, h₃, h₄, h₅, h₆, h₇, h₈, h₉, hd]
    | minus bs hd =>
        simp only [List.head?_cons, hd, Bool.true_or, ↓reduceIte]
        rfl
    | minusInfinity bs ha =>
        simp only [List.head?_cons, ha, Bool.true_and, beq_self_eq_true, Bool.or_true, ↓reduceIte]
        rfl
    | infinity bs ha => rw [ha]; rfl
    | nan bs ha => rw [ha]; rfl
    | _ => rfl

/-- **A value is announced exactly when one begins behind the blanks.** -/
theorem peek_eq_iff {s s' : Session Reader} {kind : Kind} (hs : s.failed = false) :
    peek s = (kind, s') ∧ s'.failed = false ↔
      ∃ (w : Blanks) (back : Bytes), rest s = w.text ++ back ∧
        Announces s.state.options.allowNonFinite kind back ∧ s' = skip s w.text.length := by
  constructor
  · rintro ⟨h, hs'⟩
    obtain ⟨w, back, hr, hstops, hskip⟩ := exists_skipBlank s
    have hback := rest_skip hr
    rw [peek, hskip, here?_eq, hback] at h
    cases back with
    | nil =>
        exact absurd h (Session.ne_of_failed (failed_failHere _ _) hs')
    | cons b back =>
        dsimp only [List.head?_cons] at h
        split at h
        · next k hk =>
            obtain ⟨rfl, rfl⟩ := Prod.mk.inj h
            exact ⟨w, _, hr, (kindOf_eq_ok_iff hback).mp hk, rfl⟩
        · exact absurd h (Session.ne_of_failed (failed_failHere _ _) hs')
  · rintro ⟨w, back, hr, ha, rfl⟩
    have hback := rest_skip hr
    rw [peek, skipBlank_eq w hr ha.stops, here?_eq, hback]
    cases back with
    | nil => cases ha
    | cons b back =>
        have hk := (kindOf_eq_ok_iff (r := (skip s w.text.length).state) hback).mpr ha
        dsimp only [List.head?_cons]
        rw [hk]
        exact ⟨rfl, hs⟩

/-- An item is announced exactly when a value begins behind the blanks. -/
theorem announce_eq_iff {s s' : Session Reader} {next : Option Kind} (hs : s.failed = false) :
    announce s = (next, s') ∧ s'.failed = false ↔
      ∃ (w : Blanks) (back : Bytes) (kind : Kind), next = some kind ∧ rest s = w.text ++ back ∧
        Announces s.state.options.allowNonFinite kind back ∧ s' = skip s w.text.length := by
  constructor
  · rintro ⟨h, hs'⟩
    rcases hpeek : peek s with ⟨kind, s₁⟩
    rw [announce, hpeek] at h
    obtain ⟨rfl, rfl⟩ := Prod.mk.inj h
    obtain ⟨w, back, hr, ha, rfl⟩ := (peek_eq_iff hs).mp ⟨hpeek, hs'⟩
    exact ⟨w, back, kind, if_neg (by simp [hs]), hr, ha, rfl⟩
  · rintro ⟨w, back, kind, rfl, hr, ha, rfl⟩
    obtain ⟨hpeek, hs'⟩ := (peek_eq_iff hs).mpr ⟨w, back, hr, ha, rfl⟩
    rw [announce, hpeek]
    exact ⟨Prod.ext (if_neg (by simp [hs])) rfl, hs'⟩

/-! ### Words and strings -/

/-- Reading a word goes well exactly when the word stands at the cursor. -/
theorem readWord_eq_iff {s s' : Session Reader} {word : Bytes} (hs : s.failed = false)
    (hne : 0 < word.length) :
    readWord word s = s' ∧ s'.failed = false ↔
      ∃ back, rest s = word ++ back ∧ s' = skip s word.length := by
  rw [readWord]
  constructor
  · rintro ⟨h, hs'⟩
    split at h
    · rw [← h, failed_failHere] at hs'
      cases hs'
    split at h
    · next hword =>
        obtain ⟨back, hr⟩ := Literal.startsAt_iff.mp hword
        exact ⟨back, hr, h.symm⟩
    · rw [← h, failed_failHere] at hs'
      cases hs'
  · rintro ⟨back, hr, rfl⟩
    have hlen : s.state.source.size - s.state.position = word.length + back.length := by
      rw [← Slice.length_rest, ← List.length_append]
      exact congrArg List.length hr
    rw [if_neg (by omega), if_pos (Literal.startsAt_iff.mpr ⟨back, hr⟩)]
    exact ⟨rfl, hs⟩

/-- Reading a null goes well exactly when its word stands at the cursor. -/
theorem readNull_eq_iff {s s' : Session Reader} (hs : s.failed = false) :
    readNull s = s' ∧ s'.failed = false ↔
      ∃ back, rest s = Node.null.text ++ back ∧ s' = skip s Node.null.text.length := by
  rw [readNull, readWord_eq_iff hs (by decide)]
  rfl

/-- Reading a truth value goes well exactly when the word of its kind stands at the cursor. -/
theorem readBool_eq_iff {s s' : Session Reader} {kind : Kind} {b : Bool} (hs : s.failed = false) :
    readBool kind s = (b, s') ∧ s'.failed = false ↔
      b = (kind == .true) ∧ ∃ back, rest s = (Node.boolean b).text ++ back ∧
        s' = skip s (Node.boolean b).text.length := by
  rw [readBool]
  cases hk : kind == .true with
  | true =>
      rw [if_pos rfl, Prod.mk.injEq, and_assoc, readWord_eq_iff hs (by decide), eq_comm]
      refine and_congr_right fun hb => ?_
      rw [hb]
      rfl
  | false =>
      rw [if_neg Bool.false_ne_true, Prod.mk.injEq, and_assoc, readWord_eq_iff hs (by decide), eq_comm]
      refine and_congr_right fun hb => ?_
      rw [hb]
      rfl

/-- The token for a literal that stands at the cursor. -/
def stringToken (s : Session Reader) (l : StringLiteral) : StringToken :=
  ⟨l.characters s.state.source s.state.position, !l.hasEscape⟩

/-- **A string is read exactly when a literal stands at the cursor.** -/
theorem readString_eq_iff {s s' : Session Reader} {t : StringToken} (hs : s.failed = false) :
    readString s = (t, s') ∧ s'.failed = false ↔
      ∃ (l : StringLiteral) (back : Bytes), rest s = l.text ++ back ∧ t = stringToken s l ∧
        s' = skip s l.text.length := by
  rw [readString]
  constructor
  · rintro ⟨h, hs'⟩
    split at h
    · next hq =>
        split at h
        · exact absurd h (Session.ne_of_failed (failed_failAt _ _ _) hs')
        · next part stop hread =>
            obtain ⟨l, back, hr, hl⟩ := (Literal.read_eq_ok_iff hq).mp hread
            obtain ⟨hc, rfl⟩ := Prod.mk.inj hl
            obtain ⟨rfl, rfl⟩ := Prod.mk.inj h
            refine ⟨l, back, hr, ?_, rfl⟩
            rw [stringToken, ← hc, Literal.hasEscape_of_slice hc.symm]
            rfl
        · next bs stop hread =>
            obtain ⟨l, back, hr, hl⟩ := (Literal.read_eq_ok_iff hq).mp hread
            obtain ⟨hc, rfl⟩ := Prod.mk.inj hl
            obtain ⟨rfl, rfl⟩ := Prod.mk.inj h
            refine ⟨l, back, hr, ?_, rfl⟩
            rw [stringToken, ← hc, Literal.hasEscape_of_loose hc.symm]
            rfl
    · exact absurd h (Session.ne_of_failed (failed_failHere _ _) hs')
  · rintro ⟨l, back, hr, rfl, rfl⟩
    have hq : s.state.here? = some quote := by
      rw [here?_eq, hr]
      rfl
    have hread : Literal.read s.state.source s.state.position =
        .ok (l.characters s.state.source s.state.position, s.state.position + l.text.length) :=
      (Literal.read_eq_ok_iff hq).mpr ⟨l, back, hr, rfl⟩
    rw [if_pos hq, hread, stringToken, StringLiteral.characters]
    cases l.hasEscape with
    | true => exact ⟨rfl, hs⟩
    | false => exact ⟨rfl, hs⟩

/-- The text of the token is what the literal means; it is a view unless there are escapes. -/
theorem text_stringToken {s : Session Reader} {l : StringLiteral} {back : Bytes}
    (h : rest s = l.text ++ back) :
    (stringToken s l).text s.state.source = l.toText := by
  rw [stringToken, StringToken.text, StringLiteral.characters, StringLiteral.toText]
  cases he : l.hasEscape with
  | true => rfl
  | false =>
      have hplain := (Literal.contains_backslash_eq_false_iff l.legal).mp he
      have hbody : s.state.source.rest (s.state.position + 1) =
          Pieces.text l.pieces ++ quote :: back := by
        have h' : s.state.source.rest s.state.position =
            [quote] ++ (Pieces.text l.pieces ++ quote :: back) := by
          rw [rest, StringLiteral.text] at h
          simpa using h
        exact Slice.rest_add_length h'
      have hcovers := Slice.covers_between s.state.source (s.state.position + 1)
        (s.state.position + 1 + (Pieces.text l.pieces).length)
      simp only [Bool.not_false, ↓reduceIte, Bool.false_eq_true, Text.ofCharacters,
        Characters.bytes, Characters.within, Option.any_some, hcovers, Slice.bytes_between hbody,
        StringLiteral.bytes, Pieces.bytes_of_plain hplain]

/-! ### Arrays and objects -/

/-- A byte of its own, such as a bracket or a comma, behind the blanks. -/
def Mark (mark : UInt8) (s s' : Session Reader) : Prop :=
  ∃ (w : Blanks) (back : Bytes), rest s = w.text ++ mark :: back ∧
    s' = skip s (w.text.length + 1)

/-- A value that begins behind the blanks. -/
def Begins (kind : Kind) (s s' : Session Reader) : Prop :=
  ∃ (w : Blanks) (back : Bytes), rest s = w.text ++ back ∧
    Announces s.state.options.allowNonFinite kind back ∧ s' = skip s w.text.length

/-- A key and the colon behind it, behind the blanks. -/
def Key (l : StringLiteral) (token : StringToken) (s s' : Session Reader) : Prop :=
  ∃ (w w₁ : Blanks) (back : Bytes), rest s = w.text ++ (l.text ++ (w₁.text ++ colon :: back)) ∧
    token = stringToken (skip s w.text.length) l ∧
    s' = skip s (w.text.length + (l.text.length + (w₁.text.length + 1)))

/-- Which byte stands behind the blanks. -/
theorem here?_skipBlank_eq_some_iff {s : Session Reader} {b : UInt8} :
    (skipBlank s).state.here? = some b ↔ ∃ (w : Blanks) (back : Bytes),
      rest s = w.text ++ b :: back ∧ skipBlank s = skip s w.text.length := by
  constructor
  · intro h
    obtain ⟨w, back, hr, -, hskip⟩ := exists_skipBlank s
    rw [hskip, here?_eq, rest_skip hr] at h
    obtain ⟨back', rfl⟩ := List.head?_eq_some_iff.mp h
    exact ⟨w, back', hr, hskip⟩
  · rintro ⟨w, back, hr, hskip⟩
    rw [hskip, here?_eq, rest_skip hr]
    rfl

/-- Behind blanks there are no more of them. -/
theorem skipBlank_skipBlank (s : Session Reader) : skipBlank (skipBlank s) = skipBlank s := by
  obtain ⟨w, back, hr, hstops, hskip⟩ := exists_skipBlank s
  rw [hskip]
  refine skipBlank_self ?_
  rw [rest_skip hr]
  exact hstops

/-- Going over the blanks first makes no difference to an announcement, or to a key. -/
theorem announce_skipBlank (s : Session Reader) : announce (skipBlank s) = announce s := by
  rw [announce, announce, peek, peek, skipBlank_skipBlank]

/-- Reading a key skips blanks itself. -/
theorem readKey_skipBlank (s : Session Reader) : readKey (skipBlank s) = readKey s := by
  rw [readKey, readKey, skipBlank_skipBlank]

/-- A mark is passed exactly when it is the first byte behind the blanks. -/
theorem mark_iff {s s' : Session Reader} {mark : UInt8} (hb : isBlank mark = false) :
    Mark mark s s' ↔ (skipBlank s).state.here? = some mark ∧ s' = step (skipBlank s) := by
  constructor
  · rintro ⟨w, back, hr, rfl⟩
    have hskip := skipBlank_eq w hr ((stops_cons _ _ _).mpr hb)
    refine ⟨here?_skipBlank_eq_some_iff.mpr ⟨w, back, hr, hskip⟩, ?_⟩
    rw [hskip, ← skip_skip]
    rfl
  · rintro ⟨h, rfl⟩
    obtain ⟨w, back, hr, hskip⟩ := here?_skipBlank_eq_some_iff.mp h
    refine ⟨w, back, hr, ?_⟩
    rw [hskip, ← skip_skip]
    rfl

/-- What begins no value does not stand where one begins. -/
theorem Begins.here?_ne {s s' : Session Reader} {kind : Kind} {b : UInt8} (h : Begins kind s s')
    (hb : ∀ {allow kind back}, ¬ Announces allow kind (b :: back)) :
    (skipBlank s).state.here? ≠ some b := by
  obtain ⟨w, back, hr, ha, rfl⟩ := h
  rw [skipBlank_eq w hr ha.stops, here?_eq, rest_skip hr]
  intro hhead
  obtain ⟨back', rfl⟩ := List.head?_eq_some_iff.mp hhead
  exact hb ha

/-- Telling the first item goes well exactly when some value begins behind the blanks. -/
theorem announce_begins {s s' : Session Reader} {next : Option Kind} (hs : s.failed = false) :
    announce s = (next, s') ∧ s'.failed = false ↔ ∃ kind, next = some kind ∧ Begins kind s s' := by
  rw [announce_eq_iff hs]
  constructor
  · rintro ⟨w, back, kind, rfl, hr, ha, rfl⟩
    exact ⟨kind, rfl, w, back, hr, ha, rfl⟩
  · rintro ⟨kind, rfl, w, back, hr, ha, rfl⟩
    exact ⟨w, back, kind, rfl, hr, ha, rfl⟩

/-- What begins no value is not announced. -/
theorem not_announce {s s' : Session Reader} {next : Option Kind} {b : UInt8}
    (hs : s.failed = false) (hb : (skipBlank s).state.here? = some b)
    (hno : ∀ {allow kind back}, ¬ Announces allow kind (b :: back)) :
    ¬ (announce (skipBlank s) = (next, s') ∧ s'.failed = false) := by
  rw [announce_skipBlank, announce_begins hs]
  rintro ⟨kind, -, hbegins⟩
  exact hbegins.here?_ne hno hb

/-- What begins no literal is not read as a key. -/
theorem not_readKey {s s' : Session Reader} {next : Option StringToken} {b : UInt8}
    (hb : (skipBlank s).state.here? = some b) (hno : b ≠ quote) :
    ¬ (readKey (skipBlank s) = (next, s') ∧ s'.failed = false) := by
  rw [readKey, skipBlank_skipBlank, hb]
  dsimp only
  rw [if_neg (by simpa using hno)]
  rintro ⟨h, hs'⟩
  exact Session.ne_of_failed (failed_failHere _ _) hs' h

/-- **An array is opened exactly at a bracket that the array's end or a value follows.** -/
theorem openArray_eq_iff {s s' : Session Reader} {next : Option Kind} (hs : s.failed = false) :
    openArray s = (next, s') ∧ s'.failed = false ↔
      (∃ back, rest s = openBracket :: back) ∧
        (next = none ∧ Mark closeBracket (step s) s' ∨
          ∃ kind, next = some kind ∧ Begins kind (step s) s') := by
  rw [openArray, mark_iff rfl, ← announce_begins (s := step s) hs, ← announce_skipBlank,
    ← List.head?_eq_some_iff, ← here?_eq]
  by_cases hb : s.state.here? = some openBracket
  · rw [if_pos hb]
    dsimp only
    by_cases hc : (skipBlank (step s)).state.here? = some closeBracket
    · have hno : ¬ (announce (skipBlank (step s)) = (next, s') ∧ s'.failed = false) :=
        not_announce hs hc fun ha => by cases ha; contradiction
      rw [if_pos hc]
      simp only [hb, hc, hno, true_and, or_false, Prod.mk.injEq]
      constructor
      · rintro ⟨⟨rfl, rfl⟩, -⟩
        exact ⟨rfl, rfl⟩
      · rintro ⟨rfl, rfl⟩
        exact ⟨⟨rfl, rfl⟩, hs⟩
    · rw [if_neg hc]
      simp [hb, hc]
  · rw [if_neg hb]
    simp only [hb, false_and, iff_false]
    rintro ⟨h, hs'⟩
    exact Session.ne_of_failed (failed_failHere _ _) hs' h

/-- **An array goes on exactly at its end, or at a comma that a value follows.** -/
theorem nextItem_eq_iff {s s' : Session Reader} {next : Option Kind} (hs : s.failed = false) :
    nextItem s = (next, s') ∧ s'.failed = false ↔
      next = none ∧ Mark closeBracket s s' ∨
        ∃ kind s₁, next = some kind ∧ Mark comma s s₁ ∧ Begins kind s₁ s' := by
  rw [nextItem]
  constructor
  · rintro ⟨h, hs'⟩
    split at h
    · exact absurd h (Session.ne_of_failed (failed_failHere _ _) hs')
    next b hb =>
      split at h
      · next hc =>
          obtain rfl := beq_iff_eq.mp hc
          obtain ⟨kind, rfl, hbegins⟩ :=
            (announce_begins (s := step (skipBlank s)) hs).mp ⟨h, hs'⟩
          exact .inr ⟨kind, _, rfl, (mark_iff rfl).mpr ⟨hb, rfl⟩, hbegins⟩
      split at h
      · next hc =>
          obtain rfl := beq_iff_eq.mp hc
          obtain ⟨rfl, rfl⟩ := Prod.mk.inj h
          exact .inl ⟨rfl, (mark_iff rfl).mpr ⟨hb, rfl⟩⟩
      · exact absurd h (Session.ne_of_failed (failed_failAt _ _ _) hs')
  · rintro (⟨rfl, hclose⟩ | ⟨kind, s₁, rfl, hcomma, hbegins⟩)
    · obtain ⟨hb, rfl⟩ := (mark_iff rfl).mp hclose
      rw [hb]
      exact ⟨rfl, hs⟩
    · obtain ⟨hb, rfl⟩ := (mark_iff rfl).mp hcomma
      rw [hb]
      exact (announce_begins (s := step (skipBlank s)) hs).mpr ⟨kind, rfl, hbegins⟩

/-- **A key is read exactly when a literal and a colon stand behind the blanks.** -/
theorem readKey_eq_iff {s s' : Session Reader} {next : Option StringToken}
    (hs : s.failed = false) :
    readKey s = (next, s') ∧ s'.failed = false ↔
      ∃ l token, next = some token ∧ Key l token s s' := by
  rw [readKey]
  constructor
  -- each test is either passed, or records an error and contradicts the absence of one
  · rintro ⟨h, hs'⟩
    obtain ⟨w, back, hr, -, hskip⟩ := exists_skipBlank s
    dsimp only at h
    rw [hskip] at h
    split at h
    · exact absurd h (Session.ne_of_failed (failed_failHere _ _) hs')
    next b hb =>
      split at h
      · rcases hread : readString (skip s w.text.length) with ⟨token, s₁⟩
        rw [hread] at h
        dsimp only at h
        split at h
        · next hf =>
            exact absurd h (Session.ne_of_failed hf hs')
        next hf =>
          rw [Bool.not_eq_true] at hf
          obtain ⟨l, back', hl, rfl, rfl⟩ :=
            (readString_eq_iff (s := skip s w.text.length) hs).mp ⟨hread, hf⟩
          split at h
          · exact absurd h (Session.ne_of_failed (failed_failHere _ _) hs')
          next b' hb' =>
            split at h
            · next hc =>
                obtain rfl := beq_iff_eq.mp hc
                obtain ⟨rfl, rfl⟩ := Prod.mk.inj h
                obtain ⟨w₁, back'', hr', hskip'⟩ := here?_skipBlank_eq_some_iff.mp hb'
                refine ⟨l, _, rfl, w, w₁, back'', ?_, rfl, ?_⟩
                · rw [rest_skip hl] at hr'
                  rw [rest_skip hr] at hl
                  rw [hr, hl, hr']
                · rw [hskip', skip_skip, skip_skip, step, ← skip, skip_skip]
                  congr 1
            · exact absurd h (Session.ne_of_failed (failed_failHere _ _) hs')
      · exact absurd h (Session.ne_of_failed (failed_failHere _ _) hs')
  · rintro ⟨l, token, rfl, w, w₁, back, hr, rfl, rfl⟩
    have hr₁ := rest_skip hr
    have hr₂ := rest_skip hr₁
    have hstops : Stops isBlank (l.text ++ (w₁.text ++ colon :: back)) :=
      (stops_cons _ _ _).mpr rfl
    have hhere : (skip s w.text.length).state.here? = some quote := by
      rw [here?_eq, hr₁]
      rfl
    have hskip₁ := skipBlank_eq w₁ hr₂ ((stops_cons _ _ _).mpr rfl)
    obtain ⟨hread, -⟩ := (readString_eq_iff (s := skip s w.text.length) hs).mpr
      ⟨l, _, hr₁, rfl, rfl⟩
    have hcolon : (skip (skip (skip s w.text.length) l.text.length) w₁.text.length).state.here? =
        some colon := by
      rw [here?_eq, rest_skip hr₂]
      rfl
    rw [skipBlank_eq w hr hstops, hhere]
    dsimp only
    rw [if_pos (beq_self_eq_true quote), hread]
    dsimp only
    rw [if_neg (by simp [hs]), hskip₁, hcolon, ← skip_skip, ← skip_skip, ← skip_skip]
    exact ⟨rfl, hs⟩

/-- **An object is opened exactly at a brace that the object's end or a key follows.** -/
theorem openObject_eq_iff {s s' : Session Reader} {next : Option StringToken}
    (hs : s.failed = false) :
    openObject s = (next, s') ∧ s'.failed = false ↔
      (∃ back, rest s = openBrace :: back) ∧
        (next = none ∧ Mark closeBrace (step s) s' ∨
          ∃ l token, next = some token ∧ Key l token (step s) s') := by
  rw [openObject, mark_iff rfl, ← readKey_eq_iff (s := step s) hs, ← readKey_skipBlank,
    ← List.head?_eq_some_iff, ← here?_eq]
  by_cases hb : s.state.here? = some openBrace
  · rw [if_pos hb]
    dsimp only
    by_cases hc : (skipBlank (step s)).state.here? = some closeBrace
    · have hno : ¬ (readKey (skipBlank (step s)) = (next, s') ∧ s'.failed = false) :=
        not_readKey hc (by decide)
      rw [if_pos hc]
      simp only [hb, hc, hno, true_and, or_false, Prod.mk.injEq]
      constructor
      · rintro ⟨⟨rfl, rfl⟩, -⟩
        exact ⟨rfl, rfl⟩
      · rintro ⟨rfl, rfl⟩
        exact ⟨⟨rfl, rfl⟩, hs⟩
    · rw [if_neg hc]
      simp [hb, hc]
  · rw [if_neg hb]
    simp only [hb, false_and, iff_false]
    rintro ⟨h, hs'⟩
    exact Session.ne_of_failed (failed_failHere _ _) hs' h

/-- **An object goes on exactly at its end, or at a comma that a key follows.** -/
theorem nextKey_eq_iff {s s' : Session Reader} {next : Option StringToken}
    (hs : s.failed = false) :
    nextKey s = (next, s') ∧ s'.failed = false ↔
      next = none ∧ Mark closeBrace s s' ∨
        ∃ l token s₁, next = some token ∧ Mark comma s s₁ ∧ Key l token s₁ s' := by
  rw [nextKey]
  constructor
  · rintro ⟨h, hs'⟩
    split at h
    · exact absurd h (Session.ne_of_failed (failed_failHere _ _) hs')
    next b hb =>
      split at h
      · next hc =>
          obtain rfl := beq_iff_eq.mp hc
          obtain ⟨l, token, rfl, hkey⟩ :=
            (readKey_eq_iff (s := step (skipBlank s)) hs).mp ⟨h, hs'⟩
          exact .inr ⟨l, token, _, rfl, (mark_iff rfl).mpr ⟨hb, rfl⟩, hkey⟩
      split at h
      · next hc =>
          obtain rfl := beq_iff_eq.mp hc
          obtain ⟨rfl, rfl⟩ := Prod.mk.inj h
          exact .inl ⟨rfl, (mark_iff rfl).mpr ⟨hb, rfl⟩⟩
      · exact absurd h (Session.ne_of_failed (failed_failAt _ _ _) hs')
  · rintro (⟨rfl, hclose⟩ | ⟨l, token, s₁, rfl, hcomma, hkey⟩)
    · obtain ⟨hb, rfl⟩ := (mark_iff rfl).mp hclose
      rw [hb]
      exact ⟨rfl, hs⟩
    · obtain ⟨hb, rfl⟩ := (mark_iff rfl).mp hcomma
      rw [hb]
      exact (readKey_eq_iff (s := step (skipBlank s)) hs).mpr ⟨l, token, rfl, hkey⟩

/-! ### The same in terms of the bytes gone over -/

/-- Passing a mark is passing over blanks and the mark. -/
theorem mark_iff_passes {mark : UInt8} {s s' : Session Reader} :
    Mark mark s s' ↔ ∃ w : Blanks, Passes (w.text ++ [mark]) s s' := by
  constructor
  · rintro ⟨w, back, hr, rfl⟩
    exact ⟨w, ⟨back, by rw [hr, List.append_assoc, List.singleton_append]⟩, by simp⟩
  · rintro ⟨w, ⟨back, hr⟩, rfl⟩
    exact ⟨w, back, by rw [hr, List.append_assoc, List.singleton_append], by simp⟩

/-- A value begins behind blanks that have been passed over. -/
theorem begins_iff_passes {kind : Kind} {s s' : Session Reader} :
    Begins kind s s' ↔ ∃ w : Blanks, Passes w.text s s' ∧
      Announces s'.state.options.allowNonFinite kind (rest s') := by
  constructor
  · rintro ⟨w, back, hr, ha, rfl⟩
    refine ⟨w, .of_rest hr, ?_⟩
    rw [rest_skip hr]
    exact ha
  · rintro ⟨w, hw, ha⟩
    rw [hw.options_eq] at ha
    exact ⟨w, _, hw.rest_eq, ha, hw.behind⟩

/-- A key is passed over with the blanks before it, and those up to its colon. -/
theorem key_iff_passes {l : StringLiteral} {token : StringToken} {s s' : Session Reader} :
    Key l token s s' ↔ ∃ (w w₁ : Blanks) (s₁ : Session Reader), Passes w.text s s₁ ∧
      token = stringToken s₁ l ∧ Passes (l.text ++ (w₁.text ++ [colon])) s₁ s' := by
  constructor
  · rintro ⟨w, w₁, back, hr, ht, rfl⟩
    refine ⟨w, w₁, _, .of_rest hr, ht, ⟨back, ?_⟩, ?_⟩
    · rw [rest_skip hr]
      simp only [List.append_assoc, List.singleton_append]
    · simp only [skip_skip, List.length_append, List.length_singleton]
  · rintro ⟨w, w₁, s₁, hw, ht, hl⟩
    refine ⟨w, w₁, rest s', ?_, ?_, ?_⟩
    · rw [hw.rest_eq, hl.rest_eq]
      simp only [List.append_assoc, List.singleton_append]
    · rw [ht, hw.behind]
    · rw [hl.behind, hw.behind, skip_skip]
      simp only [List.length_append, List.length_singleton]

/-! ### Numbers -/

/-- A number of the grammar stands at the cursor and ends there. -/
def NumberHere (n : NumberLiteral) (s : Session Reader) : Prop :=
  ∃ back, rest s = n.text ++ back ∧ n.numeral.EndsBefore back

/-- The numeral at the cursor is the longest number literal that stands there. -/
theorem numeralAt_eq_iff {s : Session Reader} {m : Numeral} {stop : Nat} :
    numeralAt s.state.source s.state.position = some (m, stop) ↔
      ∃ n : NumberLiteral, n.numeral = m ∧ NumberHere n s ∧
        stop = s.state.position + n.text.length := by
  rw [Numeral.numeralAt_eq_some_iff]
  constructor
  · rintro ⟨hp, hr, rfl⟩
    exact ⟨⟨m, hp⟩, rfl, hr, rfl⟩
  · rintro ⟨n, rfl, hr, rfl⟩
    exact ⟨n.proper, hr, rfl⟩

/-- A number begins with a digit, or with a minus sign and a digit. -/
theorem exists_digit {n : NumberLiteral} {s : Session Reader} (h : NumberHere n s) :
    (∃ b back, rest s = b :: back ∧ isDigit b = true) ∨
      ∃ b back, rest s = minus :: b :: back ∧ isDigit b = true := by
  obtain ⟨back, hr, -⟩ := h
  obtain ⟨b, ds, hw, hb, -⟩ := n.proper.whole.exists_cons
  rw [NumberLiteral.text, Numeral.text_eq, hw] at hr
  cases hneg : n.numeral.negative with
  | true =>
      rw [hneg] at hr
      exact .inr ⟨b, _, hr, hb⟩
  | false =>
      rw [hneg] at hr
      exact .inl ⟨b, _, hr, hb⟩

/-- A word begins with none of these. -/
theorem NonFinite.text_ne {word : NonFinite} {n : NumberLiteral} {s : Session Reader}
    {back : Bytes} (h : NumberHere n s) : rest s ≠ word.text ++ back := by
  intro hr
  rcases exists_digit h with ⟨b, back', hr', hb⟩ | ⟨b, back', hr', hb⟩ <;>
    rw [hr'] at hr <;> cases word <;> cases hr <;> cases hb

theorem next?_eq (s : Session Reader) :
    s.state.source.get? (s.state.position + 1) = (rest s).tail.head? := by
  rw [Slice.get?_eq_head?, Slice.rest_add, ← rest, List.drop_one]

/-- Where a number stands, none of the words for a float does. -/
theorem not_atNonFinite {n : NumberLiteral} {s : Session Reader} (h : NumberHere n s) :
    s.state.atNonFinite = false := by
  rw [atNonFinite, here?_eq, next?_eq]
  rcases exists_digit h with ⟨b, back, hr, hb⟩ | ⟨b, back, hr, hb⟩
  · obtain ⟨-, -, -, -, -, -, hm, hi, hn⟩ := ne_of_isDigit b hb
    rw [hr]
    simp [hm, hi, hn]
  · obtain ⟨-, -, -, -, -, -, -, hi, -⟩ := ne_of_isDigit b hb
    rw [hr]
    simp [hi]
    decide

/-- No blank comes first of a number. -/
theorem NumberHere.stops {n : NumberLiteral} {s : Session Reader} (h : NumberHere n s) :
    Stops isBlank (rest s) := by
  rcases exists_digit h with ⟨b, back, hr, hb⟩ | ⟨b, back, hr, hb⟩
  · rw [hr, stops_cons]
    exact isBlank_of_isDigit b hb
  · rw [hr, stops_cons]
    rfl

/-- Looking for an integer skips blanks itself. -/
theorem readInteger_skipBlank (s : Session Reader) : readInteger (skipBlank s) = readInteger s := by
  rw [readInteger, readInteger, skipBlank_skipBlank]

/-- What reading an integer does where a number stands. -/
theorem readInteger_of_numberHere {n : NumberLiteral} {s : Session Reader} (h : NumberHere n s) :
    readInteger s =
      if n.numeral.isInteger then
        match n.numeral.toInt64? with
        | none => (.tooLarge, s)
        | some i => (.value i, skip s n.text.length)
      else (.notInteger, s) := by
  rw [readInteger, skipBlank_self h.stops, not_atNonFinite h,
    numeralAt_eq_iff.mpr ⟨n, rfl, h, rfl⟩]
  dsimp only
  rw [Bool.and_false, if_neg Bool.false_ne_true]
  rfl

/-- **An integer is read exactly when one that fits stands at the cursor.** -/
theorem readInteger_eq_value_iff {s s' : Session Reader} {i : Int64} (hs : s.failed = false)
    (hb : Stops isBlank (rest s)) :
    readInteger s = (.value i, s') ∧ s'.failed = false ↔
      ∃ n : NumberLiteral, NumberHere n s ∧ n.numeral.isInteger = true ∧
        n.numeral.toInt64? = some i ∧ s' = skip s n.text.length := by
  constructor
  · rintro ⟨h, hs'⟩
    rw [readInteger, skipBlank_self hb] at h
    split at h
    · cases (Prod.mk.inj h).1
    split at h
    · cases (Prod.mk.inj h).1
    next m stop hn =>
      obtain ⟨n, rfl, hhere, rfl⟩ := numeralAt_eq_iff.mp hn
      split at h
      · next hi =>
          split at h
          · cases (Prod.mk.inj h).1
          · next k hk =>
              obtain ⟨hv, rfl⟩ := Prod.mk.inj h
              obtain rfl := IntegerToken.value.inj hv
              exact ⟨n, hhere, hi, hk, rfl⟩
      · cases (Prod.mk.inj h).1
  · rintro ⟨n, hhere, hi, hk, rfl⟩
    rw [readInteger_of_numberHere hhere, if_pos hi, hk]
    exact ⟨rfl, hs⟩

/-- **What stands at the cursor is left for a floating point number** exactly when it is a number
but no integer, or perhaps a word. -/
theorem readInteger_eq_notInteger_iff {s s' : Session Reader} (hs : s.failed = false)
    (hb : Stops isBlank (rest s)) :
    readInteger s = (.notInteger, s') ∧ s'.failed = false ↔
      s' = s ∧ ((s.state.options.allowNonFinite && s.state.atNonFinite) = true ∨
        ∃ n : NumberLiteral, NumberHere n s ∧ n.numeral.isInteger = false) := by
  constructor
  · rintro ⟨h, hs'⟩
    rw [readInteger, skipBlank_self hb] at h
    split at h
    · next ha => exact ⟨(Prod.mk.inj h).2.symm, .inl ha⟩
    split at h
    · exact absurd h (Session.ne_of_failed (failed_failHere _ _) hs')
    next m stop hn =>
      obtain ⟨n, rfl, hhere, rfl⟩ := numeralAt_eq_iff.mp hn
      split at h
      · split at h
        · cases (Prod.mk.inj h).1
        · cases (Prod.mk.inj h).1
      · next hi => exact ⟨(Prod.mk.inj h).2.symm, .inr ⟨n, hhere, by simpa using hi⟩⟩
  · rintro ⟨rfl, ha | ⟨n, hhere, hi⟩⟩
    · rw [readInteger, skipBlank_self hb, if_pos ha]
      exact ⟨rfl, hs⟩
    · rw [readInteger_of_numberHere hhere, if_neg (by simp [hi])]
      exact ⟨rfl, hs⟩

/-- The word at the cursor is found, when there is one. -/
theorem find?_nonFiniteWords {s : Session Reader} {word : NonFinite} {back : Bytes}
    (h : rest s = word.text ++ back) :
    nonFiniteWords.find? (fun (word, _) => s.state.source.startsAt s.state.position word) =
      some (word.text, word.number) := by
  have hr : s.state.source.rest s.state.position = word.text ++ back := h
  simp only [Slice.startsAt, Slice.ahead_eq_take, hr]
  cases word <;> rfl

/-- The word that is found in the table of words is one for a float, and stands at the cursor. -/
theorem exists_word_of_find? {s : Session Reader} {text : Bytes} {x : Binary64}
    (h : nonFiniteWords.find? (fun (word, _) => s.state.source.startsAt s.state.position word) =
      some (text, x)) : ∃ (word : NonFinite) (back : Bytes),
        text = word.text ∧ x = word.number ∧ rest s = word.text ++ back := by
  have hstarts : s.state.source.startsAt s.state.position text = true := by
    have := List.find?_some h
    exact this
  obtain ⟨back, hr⟩ := Literal.startsAt_iff.mp hstarts
  have hmem := List.mem_of_find?_eq_some h
  simp only [nonFiniteWords, List.mem_cons, Prod.mk.injEq, List.not_mem_nil, or_false] at hmem
  rcases hmem with ⟨rfl, rfl⟩ | ⟨rfl, rfl⟩ | ⟨rfl, rfl⟩
  · exact ⟨.nan, back, rfl, rfl, hr⟩
  · exact ⟨.infinity, back, rfl, rfl, hr⟩
  · exact ⟨.negativeInfinity, back, rfl, rfl, hr⟩

/-- The first letters of a word tell that it is one, and none of them is blank. -/
theorem atNonFinite_of_word {s : Session Reader} {word : NonFinite} {back : Bytes}
    (h : rest s = word.text ++ back) : s.state.atNonFinite = true ∧ Stops isBlank (rest s) := by
  rw [atNonFinite, here?_eq, next?_eq, h]
  constructor
  · cases word <;> rfl
  · cases word <;> exact (stops_cons _ _ _).mpr rfl

/-- A word is no integer. -/
theorem readInteger_of_wordHere {s : Session Reader} {word : NonFinite} {back : Bytes}
    (hallow : s.state.options.allowNonFinite = true) (h : rest s = word.text ++ back) :
    readInteger s = (.notInteger, s) := by
  obtain ⟨hword, hb⟩ := atNonFinite_of_word h
  rw [readInteger, skipBlank_self hb, hallow, hword]
  rfl

/-- Reading a number skips blanks itself. -/
theorem readFloat_skipBlank (s : Session Reader) : readFloat (skipBlank s) = readFloat s := by
  rw [readFloat, readFloat, skipBlank_skipBlank]

/-- A word is read as the number that it stands for. -/
theorem readFloat_of_wordHere {s : Session Reader} {word : NonFinite} {back : Bytes}
    (hallow : s.state.options.allowNonFinite = true) (h : rest s = word.text ++ back) :
    readFloat s = (word.number, skip s word.text.length) := by
  rw [readFloat, skipBlank_self (atNonFinite_of_word h).2]
  dsimp only
  rw [if_pos hallow, find?_nonFiniteWords h]
  rfl

/-- Words are looked for first, and none stands where a number does. -/
theorem nonFiniteWord?_eq_none {n : NumberLiteral} {s : Session Reader} (h : NumberHere n s) :
    (if s.state.options.allowNonFinite then
      nonFiniteWords.find? fun (word, _) => s.state.source.startsAt s.state.position word
      else none) = none := by
  split
  · cases hfind : nonFiniteWords.find? fun (word, _) =>
        s.state.source.startsAt s.state.position word with
    | none => rfl
    | some found =>
        obtain ⟨word, back, -, -, hr⟩ := exists_word_of_find? hfind
        exact absurd hr (NonFinite.text_ne h)
  · rfl

/-- What reading a floating point number does where a number stands. -/
theorem readFloat_of_numberHere {n : NumberLiteral} {s : Session Reader} (h : NumberHere n s) :
    readFloat s =
      if n.nearest.isFinite then (n.nearest, skip s n.text.length)
      else (Binary64.zero, failHere s .numberOutOfRange) := by
  have hnearest : n.numeral.toBinary64 = n.nearest := n.numeral.toBinary64_eq
  rw [readFloat, skipBlank_self h.stops]
  dsimp only
  rw [nonFiniteWord?_eq_none h, numeralAt_eq_iff.mpr ⟨n, rfl, h, rfl⟩]
  dsimp only
  rw [hnearest]
  rfl

/-- **A floating point number is read exactly when a word or a number stands at the cursor**, the
number not being too large. -/
theorem readFloat_eq_iff {s s' : Session Reader} {x : Binary64} (hs : s.failed = false)
    (hb : Stops isBlank (rest s)) :
    readFloat s = (x, s') ∧ s'.failed = false ↔
      (s.state.options.allowNonFinite = true ∧ ∃ (word : NonFinite) (back : Bytes),
        rest s = word.text ++ back ∧ x = word.number ∧ s' = skip s word.text.length) ∨
      ∃ n : NumberLiteral, NumberHere n s ∧ x = n.nearest ∧ n.nearest.isFinite = true ∧
        s' = skip s n.text.length := by
  constructor
  · rintro ⟨h, hs'⟩
    rw [readFloat, skipBlank_self hb] at h
    dsimp only at h
    split at h
    · next word y hword =>
        split at hword
        · next ha =>
            obtain ⟨w, back, rfl, rfl, hr⟩ := exists_word_of_find? hword
            obtain ⟨rfl, rfl⟩ := Prod.mk.inj h
            exact .inl ⟨ha, w, back, hr, rfl, rfl⟩
        · cases hword
    split at h
    · exact absurd h (Session.ne_of_failed (failed_failHere _ _) hs')
    next m stop hn =>
      obtain ⟨n, rfl, hhere, rfl⟩ := numeralAt_eq_iff.mp hn
      have hnearest : n.numeral.toBinary64 = n.nearest := n.numeral.toBinary64_eq
      rw [hnearest] at h
      split at h
      · next hfinite =>
          obtain ⟨rfl, rfl⟩ := Prod.mk.inj h
          exact .inr ⟨n, hhere, rfl, hfinite, rfl⟩
      · exact absurd h (Session.ne_of_failed (failed_failHere _ _) hs')
  · rintro (⟨ha, word, back, hr, rfl, rfl⟩ | ⟨n, hhere, rfl, hfinite, rfl⟩)
    · rw [readFloat_of_wordHere ha hr]
      exact ⟨rfl, hs⟩
    · rw [readFloat_of_numberHere hhere, if_pos hfinite]
      exact ⟨rfl, hs⟩

end Reader

end JsonTree
