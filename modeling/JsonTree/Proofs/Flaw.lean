import JsonTree.Proofs.Reading

/-!
# Flaw — where a string literal goes wrong

Behind its quote a literal goes on character by character, each standing for itself or escaped,
until the closing quote or something that offends: a control byte, bytes that are no character, a
backslash that begins no escape, or the end of the document.  What offends first is told, and where
(`Stray`, `Miscoded`, `Misescaped`); which of the scans comes upon it makes no difference.

* `stretch_eq_error_iff`, `codePoint_eq_error_iff`, `escape_eq_error_iff`: what each of the scans
  tells.
* `read_eq_error_iff`: what is told of a whole literal is the first thing in it that offends.
* `string_read_or_offence_told`: a string at the cursor is read, or what offends first is on record.
-/

namespace JsonTree

open Ascii Bytes

namespace Literal

/-! ### What offends -/

/-- What is not four hexadecimal digits and something behind them. -/
def NoDigits (bs : Bytes) : Prop :=
  ∀ digits n back, HexFour digits n → bs ≠ digits ++ back

/-- At an index stands neither a character that stands for itself nor a byte that ends a stretch. -/
inductive Stray (opened j : Nat) : Bytes → LiteralFailure → Prop where
  /-- The document has ended; this is told at the opening quote. -/
  | ended : Stray opened j [] ⟨.unexpectedEnd, opened, j⟩
  | control {b : UInt8} {back : Bytes} : isControl b = true →
      Stray opened j (b :: back) ⟨.invalidString, j, j⟩
  | illFormed {b : UInt8} {back : Bytes} : 0x80 ≤ b →
      (∀ n c rest, Utf8.Encodes n c → b :: back ≠ c ++ rest) →
      Stray opened j (b :: back) ⟨.invalidUtf8, j, j⟩

/-- Behind a backslash and a `u`, at an index, no character is named. -/
inductive Miscoded (i : Nat) : Bytes → LiteralFailure → Prop where
  | digits {bs : Bytes} : NoDigits bs → Miscoded i bs ⟨.invalidUnicodeEscape, i, i⟩
  /-- The second half of a pair comes first. -/
  | lowFirst {low back : Bytes} {y : Nat} : HexFour low (0xDC00 + y) → y < 0x400 →
      Miscoded i (low ++ back) ⟨.invalidSurrogate, i + 4, i + 4⟩
  /-- No second half is begun. -/
  | highAlone {high back : Bytes} {x : Nat} : HexFour high (0xD800 + x) → x < 0x400 →
      (∀ rest, back ≠ backslash :: 'u'.toUInt8 :: rest) →
      Miscoded i (high ++ back) ⟨.invalidSurrogate, i + 4, i + 4⟩
  | digitsOfLow {high back : Bytes} {x : Nat} : HexFour high (0xD800 + x) → x < 0x400 →
      NoDigits back → Miscoded i (high ++ backslash :: 'u'.toUInt8 :: back)
        ⟨.invalidUnicodeEscape, i + 6, i + 6⟩
  | notLow {high low back : Bytes} {x n : Nat} : HexFour high (0xD800 + x) → x < 0x400 →
      HexFour low n → (∀ y, y < 0x400 → n ≠ 0xDC00 + y) →
      Miscoded i (high ++ backslash :: 'u'.toUInt8 :: (low ++ back))
        ⟨.invalidSurrogate, i + 10, i + 10⟩

/-- The backslash at an index begins no escape. -/
inductive Misescaped (opened j : Nat) : Bytes → LiteralFailure → Prop where
  /-- The document has ended; this is told at the opening quote. -/
  | ended : Misescaped opened j [backslash] ⟨.unexpectedEnd, opened, j + 1⟩
  | letter {b : UInt8} {back : Bytes} : (∀ c, (b, c) ∉ escapeLetters) → b ≠ 'u'.toUInt8 →
      Misescaped opened j (backslash :: b :: back) ⟨.invalidEscape, j + 1, j + 2⟩
  | code {back : Bytes} {f : LiteralFailure} : Miscoded (j + 2) back f →
      Misescaped opened j (backslash :: 'u'.toUInt8 :: back) f

/-- What stands at an index offends. -/
def Offends (opened j : Nat) (bs : Bytes) (f : LiteralFailure) : Prop :=
  Stray opened j bs f ∨ Misescaped opened j bs f

/-- The characters from an index on are as they should be until something offends. -/
def Flawed (opened i : Nat) (bs : Bytes) (f : LiteralFailure) : Prop :=
  ∃ ps back, (∀ p ∈ ps, p.Legal) ∧ bs = Pieces.text ps ++ back ∧
    Offends opened (i + (Pieces.text ps).length) back f

theorem Misescaped.exists_backslash {opened j : Nat} {bs : Bytes} {f : LiteralFailure}
    (h : Misescaped opened j bs f) : ∃ tail, bs = backslash :: tail := by
  cases h <;> exact ⟨_, rfl⟩

theorem Stray.not_backslash {opened j : Nat} {tail : Bytes} {f : LiteralFailure} :
    ¬ Stray opened j (backslash :: tail) f := by
  intro h
  cases h with
  | control hb => exact absurd hb (by decide)
  | illFormed hb _ => exact absurd hb (by decide)

variable {s : Slice} {opened i : Nat} {f : LiteralFailure}

/-! ### Escapes -/

/-- Four digits are missed exactly where they do not stand. -/
theorem hexFour?_eq_none_iff : hexFour? s i = none ↔ NoDigits (s.rest i) := by
  constructor
  · intro h digits n back hd hr
    rw [hexFour?_eq_some_iff.mpr ⟨digits, back, hd, hr⟩] at h
    cases h
  · intro h
    rw [Option.eq_none_iff_forall_ne_some]
    intro n hn
    obtain ⟨digits, back, hd, hr⟩ := hexFour?_eq_some_iff.mp hn
    exact h digits n back hd hr

/-- A text is missed exactly where it does not stand. -/
theorem startsAt_eq_false_iff {expected : Bytes} :
    s.startsAt i expected = false ↔ ∀ back, s.rest i ≠ expected ++ back := by
  rw [← Bool.not_eq_true, startsAt_iff, not_exists]

/-- What is told of a code point stands in the document. -/
theorem miscoded_of_codePoint (h : codePoint s i = .error f) : Miscoded i (s.rest i) f := by
  rw [codePoint] at h
  split at h
  · next hn =>
      cases h
      exact .digits (hexFour?_eq_none_iff.mp hn)
  next n hn =>
    obtain ⟨digits, back, hd, hr⟩ := hexFour?_eq_some_iff.mp hn
    have hback : s.rest (i + 4) = back := by
      rw [← hd.length_eq]
      exact Slice.rest_add_length hr
    rw [hr]
    split at h
    · next hhigh =>
        obtain ⟨x, rfl, hx⟩ := (isHighSurrogate_iff n).mp hhigh
        split at h
        · next hstarts =>
            obtain ⟨back', hr'⟩ := startsAt_iff.mp hstarts
            have hback' : s.rest (i + 6) = back' := Slice.rest_add_length hr'
            obtain rfl : back = backslash :: 'u'.toUInt8 :: back' := hback.symm.trans hr'
            split at h
            · next hnone =>
                cases h
                rw [hexFour?_eq_none_iff, hback'] at hnone
                exact .digitsOfLow hd hx hnone
            next m hm =>
              obtain ⟨low, back'', hl, hr''⟩ := hexFour?_eq_some_iff.mp hm
              rw [hback'] at hr''
              split at h
              · cases h
              next hlow =>
                cases h
                rw [hr'']
                exact .notLow hd hx hl fun y hy hm =>
                  hlow ((isLowSurrogate_iff m).mpr ⟨y, hm, hy⟩)
        · next hstarts =>
            cases h
            rw [Bool.not_eq_true, startsAt_eq_false_iff, hback] at hstarts
            exact .highAlone hd hx hstarts
    split at h
    · next hlow =>
        cases h
        obtain ⟨y, rfl, hy⟩ := (isLowSurrogate_iff n).mp hlow
        exact .lowFirst hd hy
    · cases h

/-- What miscodes a code point is told of it. -/
theorem codePoint_of_miscoded {bs : Bytes} (h : Miscoded i bs f) (hr : s.rest i = bs) :
    codePoint s i = .error f := by
  -- where the digits of a first half have been read
  have behind {high back : Bytes} {x : Nat} (hh : HexFour high (0xD800 + x)) (hx : x < 0x400)
      (hr : s.rest i = high ++ back) : s.rest (i + 4) = back ∧
        hexFour? s i = some (0xD800 + x) ∧ isHighSurrogate (0xD800 + x) = true := by
    refine ⟨?_, hexFour?_eq_some_iff.mpr ⟨high, _, hh, hr⟩, (isHighSurrogate_iff _).mpr ⟨x, rfl, hx⟩⟩
    rw [← hh.length_eq]
    exact Slice.rest_add_length hr
  have behindU {back : Bytes} (hr : s.rest (i + 4) = [backslash, 'u'.toUInt8] ++ back) :
      s.startsAt (i + 4) [backslash, 'u'.toUInt8] = true ∧ s.rest (i + 6) = back :=
    ⟨startsAt_iff.mpr ⟨back, hr⟩, Slice.rest_add_length hr⟩
  rw [codePoint]
  cases h with
  | digits hno => rw [hexFour?_eq_none_iff.mpr (hr ▸ hno)]
  | @lowFirst low back y hl hy =>
      have hlow : isLowSurrogate (0xDC00 + y) = true := (isLowSurrogate_iff _).mpr ⟨y, rfl, hy⟩
      have hhigh : ¬ isHighSurrogate (0xDC00 + y) = true := by
        rw [isHighSurrogate_iff]
        rintro ⟨x, hx, hlt⟩
        omega
      rw [hexFour?_eq_some_iff.mpr ⟨low, back, hl, hr⟩]
      simp only [if_neg hhigh, if_pos hlow]
  | highAlone hh hx hno =>
      obtain ⟨hback, hn, hhigh⟩ := behind hh hx hr
      have hstarts : s.startsAt (i + 4) [backslash, 'u'.toUInt8] = false :=
        startsAt_eq_false_iff.mpr (hback ▸ hno)
      simp only [hn, if_pos hhigh, hstarts, Bool.false_eq_true, ↓reduceIte]
  | digitsOfLow hh hx hno =>
      obtain ⟨hback, hn, hhigh⟩ := behind hh hx hr
      obtain ⟨hstarts, hback'⟩ := behindU hback
      simp only [hn, if_pos hhigh, if_pos hstarts, hexFour?_eq_none_iff.mpr (hback' ▸ hno)]
  | @notLow high low back x n hh hx hl hno =>
      obtain ⟨hback, hn, hhigh⟩ := behind hh hx hr
      obtain ⟨hstarts, hback'⟩ := behindU hback
      have hlow : ¬ isLowSurrogate n = true := by
        rw [isLowSurrogate_iff]
        rintro ⟨y, hy, hlt⟩
        exact hno y hlt hy
      simp only [hn, if_pos hhigh, if_pos hstarts,
        hexFour?_eq_some_iff.mpr ⟨low, back, hl, hback'⟩, if_neg hlow]

/-- **What is told of a code point is what miscodes it.** -/
theorem codePoint_eq_error_iff : codePoint s i = .error f ↔ Miscoded i (s.rest i) f :=
  ⟨miscoded_of_codePoint, fun h => codePoint_of_miscoded h rfl⟩

/-- A letter that escapes nothing by itself is not in the table. -/
theorem simpleEscape?_eq_none_iff {b : UInt8} :
    simpleEscape? b = none ↔ ∀ c, (b, c) ∉ escapeLetters := by
  rw [Option.eq_none_iff_forall_ne_some]
  exact forall_congr' fun c => not_congr simpleEscape?_eq_some_iff

theorem simpleEscape?_u : simpleEscape? 'u'.toUInt8 = none := by
  decide

/-- **An escape goes wrong exactly when what stands there begins none.** -/
theorem escape_eq_error_iff (hi : s.get? i = some backslash) :
    escape s opened i = .error f ↔ Misescaped opened i (s.rest i) f := by
  have hr := Slice.rest_eq_cons_of_get? hi
  rw [escape]
  constructor
  · intro h
    split at h
    · next hget =>
        cases h
        rw [hr, Slice.rest_eq_nil_of_get? hget]
        exact .ended
    next b hb =>
      rw [hr, Slice.rest_eq_cons_of_get? hb]
      split at h
      · cases h
      next hletter =>
        split at h
        · next hu =>
            obtain rfl := beq_iff_eq.mp hu
            exact .code (codePoint_eq_error_iff.mp h)
        · next hu =>
            cases h
            exact .letter (simpleEscape?_eq_none_iff.mp hletter) (by simpa using hu)
  · intro h
    have hget : s.get? (i + 1) = (s.rest (i + 1)).head? := Slice.get?_eq_head? s (i + 1)
    generalize s.rest i = bs at h hr
    cases h with
    | ended => rw [hget, ← (List.cons.inj hr).2, List.head?_nil]
    | letter hletter hu =>
        rw [hget, ← (List.cons.inj hr).2, List.head?_cons]
        dsimp only
        rw [simpleEscape?_eq_none_iff.mpr hletter]
        exact if_neg (by simpa using hu)
    | @code back f hcode =>
        have hback : s.rest (i + 1) = ['u'.toUInt8] ++ back := (List.cons.inj hr).2.symm
        rw [hget, hback, List.singleton_append, List.head?_cons]
        dsimp only
        rw [simpleEscape?_u]
        exact codePoint_of_miscoded hcode (Slice.rest_add_length hback)

/-! ### Stretches -/

/-- A control byte needs a second look, but ends no stretch. -/
theorem of_control : ∀ b : UInt8, isControl b = true →
    isPlain b = false ∧ (b == quote || b == backslash) = false :=
  forall_byte (by decide)

/-- Four bytes are enough to tell that no character is encoded at an index. -/
theorem decode?_ahead_eq_none_iff : Utf8.decode? (s.ahead i 4) = none ↔
    ∀ n c back, Utf8.Encodes n c → s.rest i ≠ c ++ back := by
  constructor
  · intro h n c back hc hr
    rw [decode?_ahead_eq_some_iff.mpr ⟨c, back, hr, rfl, hc⟩] at h
    cases h
  · intro h
    rw [Option.eq_none_iff_forall_ne_some]
    rintro ⟨n, k⟩ hd
    obtain ⟨c, back, hr, -, hc⟩ := decode?_ahead_eq_some_iff.mp hd
    exact h n c back hc hr

/-- Plain pieces stand from the index on, and behind them something strays. -/
def StraysFrom (s : Slice) (opened i : Nat) (f : LiteralFailure) : Prop :=
  ∃ ps back, (∀ p ∈ ps, p.Plain) ∧ s.rest i = Pieces.text ps ++ back ∧
    Stray opened (i + (Pieces.text ps).length) back f

/-- What strays behind a plain character strays from the character on. -/
theorem StraysFrom.cons {p : Piece} {back : Bytes} (hp : p.Plain) (hr : s.rest i = p.text ++ back)
    (h : StraysFrom s opened (i + p.text.length) f) : StraysFrom s opened i f := by
  obtain ⟨ps, back', hps, hr', hstray⟩ := h
  refine ⟨p :: ps, back', ?_, ?_, ?_⟩
  · rintro q (_ | ⟨_, hq⟩)
    · exact hp
    · exact hps q hq
  · rw [Slice.rest_add_length hr] at hr'
    rw [hr, hr', Pieces.text_cons, List.append_assoc]
  · rw [Pieces.text_cons, List.length_append, ← Nat.add_assoc]
    exact hstray

/-- The scan over ordinary bytes tells what strays first. -/
theorem straysFrom_of_ordinary (h : ordinary s i = .error f) : StraysFrom s opened i f := by
  -- on the bytes that are left: the scan goes on behind each character
  induction hn : s.size - i using Nat.strong_induction_on generalizing i with
  | h n ih =>
      cases hb : s.get? i with
      | none =>
          rw [ordinary_none hb] at h
          cases h
      | some b =>
          have hr := Slice.rest_eq_cons_of_get? hb
          have hlt := Slice.lt_size_of_get? hb
          cases hp : isPlain b with
          | true =>
              rw [ordinary_plain hb hp] at h
              have hnext := ih (s.size - (i + 1)) (by omega) h rfl
              exact .cons (plain_of_isPlain hp) hr hnext
          | false =>
              rw [ordinary_some hb hp] at h
              split at h
              · cases h
              next hstop =>
                split at h
                · next hcontrol =>
                    cases h
                    exact ⟨[], _, by simp, hr, .control hcontrol⟩
                next hcontrol =>
                  have hbeyond := beyond_ascii b hp (by simpa using hstop) (by simpa using hcontrol)
                  split at h
                  · next hd =>
                      cases h
                      rw [decode?_ahead_eq_none_iff, hr] at hd
                      exact ⟨[], _, by simp, hr, .illFormed hbeyond hd⟩
                  next m k hd =>
                    obtain ⟨c, back, hr', rfl, hc⟩ := decode?_ahead_eq_some_iff.mp hd
                    have hpos := hc.length_pos
                    have hplain : Piece.Plain ⟨c, c⟩ := by
                      obtain ⟨rest, rfl⟩ := exists_cons_of_append hpos (hr'.symm.trans hr)
                      exact plain_of_encodes hc hbeyond
                    have hnext := ih (s.size - (i + c.length)) (by omega) h rfl
                    exact .cons hplain hr' hnext

/-- What strays behind plain pieces is come upon, unless it is the end of the document. -/
theorem ordinary_of_stray {ps : List Piece} {b : UInt8} {back : Bytes} (hps : ∀ p ∈ ps, p.Plain)
    (hr : s.rest i = Pieces.text ps ++ b :: back)
    (h : Stray opened (i + (Pieces.text ps).length) (b :: back) f) : ordinary s i = .error f := by
  induction ps generalizing i with
  | nil =>
      have hget : s.get? i = some b := by
        rw [Slice.get?_eq_head?, hr]
        rfl
      cases h with
      | control hb =>
          obtain ⟨hplain, hstop⟩ := of_control b hb
          rw [ordinary_some hget hplain, hstop, hb]
          rfl
      | illFormed hb hno =>
          obtain ⟨hplain, hstop, hcontrol⟩ := of_beyond_ascii b hb
          have hr' : s.rest i = b :: back := hr
          rw [← hr'] at hno
          rw [ordinary_some hget hplain, hstop, hcontrol, decode?_ahead_eq_none_iff.mpr hno]
          rfl
  | cons p ps ih =>
      rw [Pieces.text_cons, List.append_assoc] at hr
      rw [Pieces.text_cons, List.length_append, ← Nat.add_assoc] at h
      rw [ordinary_piece (hps p List.mem_cons_self) hr]
      exact ih (fun q hq => hps q (List.mem_cons_of_mem _ hq)) (Slice.rest_add_length hr) h

/-- **A stretch goes wrong exactly when something strays behind plain pieces.** -/
theorem stretch_eq_error_iff : stretch s opened i = .error f ↔ StraysFrom s opened i f := by
  rw [stretch, ← ordinary]
  constructor
  · intro h
    cases ho : ordinary s i with
    | error g =>
        rw [ho] at h
        cases h
        exact straysFrom_of_ordinary ho
    | ok j =>
        obtain ⟨ps, back, hps, hr, -, rfl⟩ := plainTo_of_ordinary ho
        rw [ho] at h
        dsimp only at h
        split at h
        · next hget =>
            have hback := Slice.rest_eq_nil_of_get? hget
            rw [Slice.rest_add_length hr] at hback
            subst hback
            cases h
            exact ⟨ps, [], hps, hr, .ended⟩
        · cases h
  · rintro ⟨ps, back, hps, hr, h⟩
    cases back with
    | nil =>
        have hget : s.get? (i + (Pieces.text ps).length) = none := by
          rw [Slice.get?_eq_head?, Slice.rest_add_length hr]
          rfl
        have hpauses : Pauses [] := by simp [Pauses]
        rw [ordinary_eq_ok_iff.mpr ⟨ps, [], hps, hr, hpauses, rfl⟩]
        simp only [hget]
        cases h
        rfl
    | cons b back => rw [ordinary_of_stray hps hr h]

/-! ### Whole literals -/

/-- Behind more characters the same offends. -/
theorem Flawed.behind {ps : List Piece} {bs : Bytes} (hps : ∀ p ∈ ps, p.Legal)
    (h : Flawed opened (i + (Pieces.text ps).length) bs f) :
    Flawed opened i (Pieces.text ps ++ bs) f := by
  obtain ⟨qs, back, hqs, rfl, hback⟩ := h
  refine ⟨ps ++ qs, back, fun p hp => (List.mem_append.mp hp).elim (hps p) (hqs p), ?_, ?_⟩
  · rw [Pieces.text_append, List.append_assoc]
  · rw [Pieces.text_append, List.length_append, ← Nat.add_assoc]
    exact hback

/-- What strays first offends first. -/
theorem StraysFrom.flawed (h : StraysFrom s opened i f) : Flawed opened i (s.rest i) f := by
  obtain ⟨ps, back, hps, hr, hback⟩ := h
  exact ⟨ps, back, fun p hp => .inl (hps p hp), hr, .inl hback⟩

/-- What is flawed goes on with plain pieces and something that strays, or with plain pieces and a
backslash, from which on it is flawed. -/
theorem Flawed.cases (h : Flawed opened i (s.rest i) f) :
    StraysFrom s opened i f ∨ ∃ run back, (∀ p ∈ run, p.Plain) ∧
      s.rest i = Pieces.text run ++ ending false :: back ∧
      Flawed opened (i + (Pieces.text run).length) (ending false :: back) f := by
  obtain ⟨ps, back, hps, hr, hback⟩ := h
  obtain ⟨run, rest, rfl, hrun, hrest, hhead⟩ := exists_split hps
  rw [Pieces.text_append, List.append_assoc] at hr
  rw [Pieces.text_append, List.length_append, ← Nat.add_assoc] at hback
  have hflawed : Flawed opened (i + (Pieces.text run).length) (Pieces.text rest ++ back) f :=
    ⟨rest, back, hrest, rfl, hback⟩
  cases rest with
  | nil =>
      rcases hback with hstray | hescape
      · exact .inl ⟨run, back, hrun, hr, hstray⟩
      · obtain ⟨tail, rfl⟩ := hescape.exists_backslash
        exact .inr ⟨run, tail, hrun, hr, hflawed⟩
  | cons e rest =>
      obtain ⟨tail, ht⟩ := exists_text_of_escape (hhead e rfl)
      have htext : Pieces.text (e :: rest) ++ back =
          ending false :: (tail ++ (Pieces.text rest ++ back)) := by
        rw [Pieces.text_cons, ht, List.append_assoc]
        rfl
      rw [htext] at hr hflawed
      exact .inr ⟨run, _, hrun, hr, hflawed⟩

/-- What is flawed from a backslash on begins with a bad escape, or with an escape behind which it
is flawed. -/
theorem Flawed.cases_backslash (hi : s.get? i = some backslash)
    (h : Flawed opened i (s.rest i) f) :
    Misescaped opened i (s.rest i) f ∨ ∃ text cs, Piece.Escape ⟨text, cs⟩ ∧
      (∃ back, s.rest i = text ++ back) ∧
      Flawed opened (i + text.length) (s.rest (i + text.length)) f := by
  have hr' := Slice.rest_eq_cons_of_get? hi
  obtain ⟨ps, back, hps, hr, hback⟩ := h
  cases ps with
  | nil =>
      rcases hback with hstray | hescape
      · rw [Pieces.text_nil, List.nil_append] at hr
        rw [← hr, hr'] at hstray
        exact absurd hstray Stray.not_backslash
      · rw [hr]
        exact .inl hescape
  | cons p ps =>
      have hp : p.Escape := by
        rcases hps p List.mem_cons_self with hp | hp
        · rcases plain_cases hp with ⟨b, rfl, hb⟩ | ⟨b, rest, n, rfl, hb, -⟩
          · obtain rfl : backslash = b := (List.cons.inj (hr'.symm.trans hr)).1
            cases hb
          · obtain rfl : backslash = b := (List.cons.inj (hr'.symm.trans hr)).1
            exact absurd hb (by decide)
        · exact hp
      rw [Pieces.text_cons, List.append_assoc] at hr
      rw [Pieces.text_cons, List.length_append, ← Nat.add_assoc] at hback
      refine .inr ⟨p.text, p.bytes, hp, ⟨_, hr⟩, ps, back,
        fun q hq => hps q (List.mem_cons_of_mem _ hq), ?_, hback⟩
      exact Slice.rest_add_length hr

/-- What the decoding loop tells is what offends first. -/
theorem flawed_of_unescape {remaining : Nat} {out : Output} (hi : s.get? i = some backslash)
    (hn : s.size - i ≤ remaining) (h : unescape s opened remaining i out = .error f) :
    Flawed opened i (s.rest i) f := by
  induction remaining generalizing i out with
  | zero =>
      have hlt := Slice.lt_size_of_get? hi
      omega
  | succ remaining ih =>
      cases he : escape s opened i with
      | error g =>
          rw [unescape, he] at h
          cases h
          exact ⟨[], _, by simp, rfl, .inr ((escape_eq_error_iff hi).mp he)⟩
      | ok found =>
          obtain ⟨text, back, hp, hr, hj⟩ := (escape_eq_ok_iff hi).mp he
          have behind : Flawed opened (i + text.length) back f → Flawed opened i (s.rest i) f := by
            intro hback
            have hlegal := legal_cons (.inr hp) (List.forall_mem_nil _)
            rw [hr]
            simpa using Flawed.behind hlegal (by simpa using hback)
          cases hs : stretch s opened found.2 with
          | error g =>
              rw [unescape, he] at h
              simp only [hs] at h
              cases h
              have hstrays := (stretch_eq_error_iff.mp hs).flawed
              rw [hj, Slice.rest_add_length hr] at hstrays
              exact behind hstrays
          | ok part =>
              -- an escape and the characters behind it are gone over in one step
              obtain ⟨run, back', hrun, hr', -⟩ := stretch_eq_ok_iff.mp hs
              rw [hj, Slice.rest_add_length hr] at hr'
              rw [hr'] at hr behind
              rw [unescape_succ hi hp hrun hr] at h
              cases hclosed : part.closed with
              | true =>
                  rw [hclosed] at h
                  cases h
              | false =>
                  rw [hclosed] at h hr behind
                  obtain ⟨hget, hsize⟩ := next_escape hp hr hn
                  have hrest := ih hget hsize h
                  rw [Slice.rest_add_length (Slice.rest_add_length hr)] at hrest
                  exact behind (.behind (fun p hmem => .inl (hrun p hmem)) hrest)

/-- What offends first is what the decoding loop tells. -/
theorem unescape_of_flawed {remaining : Nat} {out : Output} (hi : s.get? i = some backslash)
    (hn : s.size - i ≤ remaining) (h : Flawed opened i (s.rest i) f) :
    unescape s opened remaining i out = .error f := by
  induction remaining generalizing i out with
  | zero =>
      have hlt := Slice.lt_size_of_get? hi
      omega
  | succ remaining ih =>
      rcases h.cases_backslash hi with hescape | ⟨text, cs, hp, ⟨back, hr⟩, hflawed⟩
      · rw [unescape, (escape_eq_error_iff hi).mpr hescape]
      rcases hflawed.cases with hstrays | ⟨run, back', hrun, hr', hrest⟩
      · rw [unescape, (escape_eq_ok_iff hi).mpr ⟨text, back, hp, hr, rfl⟩]
        simp only [stretch_eq_error_iff.mpr hstrays]
      · rw [Slice.rest_add_length hr] at hr'
        rw [hr'] at hr
        obtain ⟨hget, hsize⟩ := next_escape hp hr hn
        rw [unescape_succ hi hp hrun hr, if_neg Bool.false_ne_true]
        refine ih hget hsize ?_
        rw [Slice.rest_add_length (Slice.rest_add_length hr)]
        exact hrest

/-- **A literal goes wrong exactly where it is flawed.** -/
theorem read_eq_error_iff : read s i = .error f ↔ Flawed i (i + 1) (s.rest (i + 1)) f := by
  constructor
  · intro h
    cases hs : stretch s i (i + 1) with
    | error g =>
        rw [read, hs] at h
        cases h
        exact (stretch_eq_error_iff.mp hs).flawed
    | ok part =>
        obtain ⟨run, back, hrun, hr, -⟩ := stretch_eq_ok_iff.mp hs
        cases hclosed : part.closed with
        | true =>
            rw [hclosed] at hr
            rw [read_plain hrun hr] at h
            cases h
        -- nothing is wrong up to the first escape, so that what is told comes from the loop behind it
        | false =>
            rw [hclosed] at hr
            rw [read_escape hrun hr] at h
            have hget : s.get? (i + 1 + (Pieces.text run).length) = some backslash := by
              rw [Slice.get?_eq_head?, Slice.rest_add_length hr]
              rfl
            cases hu : unescape s i (s.size - (i + 1 + (Pieces.text run).length))
                (i + 1 + (Pieces.text run).length) (.ofBytes (Pieces.text run)) with
            | ok found =>
                rw [hu] at h
                cases h
            | error g =>
                rw [hu] at h
                cases h
                have hrest := flawed_of_unescape hget (Nat.le_refl _) hu
                rw [Slice.rest_add_length hr] at hrest
                rw [hr]
                exact .behind (fun p hmem => .inl (hrun p hmem)) hrest
  · intro h
    rcases h.cases with hstrays | ⟨run, back, hrun, hr, hrest⟩
    · rw [read, stretch_eq_error_iff.mpr hstrays]
    · have hback := Slice.rest_add_length hr
      have hget : s.get? (i + 1 + (Pieces.text run).length) = some backslash := by
        rw [Slice.get?_eq_head?, hback]
        rfl
      rw [← hback] at hrest
      rw [read_escape hrun hr, unescape_of_flawed hget (Nat.le_refl _) hrest]
      rfl

end Literal

namespace Reader

variable {s : Session Reader}

/-- The literal that begins at the cursor is flawed. -/
def FlawedHere (s : Session Reader) (f : LiteralFailure) : Prop :=
  Literal.Flawed s.state.position (s.state.position + 1) (s.state.source.rest (s.state.position + 1))
    f

/-- A literal at the cursor is read and gone over. -/
theorem readString_of_literal (hs : s.fault = none) {l : StringLiteral} {back : Bytes}
    (hr : rest s = l.text ++ back) :
    readString s = (stringToken s l, skip s l.text.length) := by
  have hfailed : s.failed = false := by rw [Session.failed, hs]; rfl
  exact ((readString_eq_iff hfailed).mpr ⟨l, back, hr, rfl, rfl⟩).1

/-- What offends first in a string at the cursor is put on record. -/
theorem readString_of_flawed (hs : s.fault = none) (hq : s.state.here? = some quote)
    {f : LiteralFailure} (h : FlawedHere s f) :
    readString s = (.none, { moveTo s f.stop with
      fault := some (Error.locate s.state.source f.code f.offset) }) := by
  have hfault : (moveTo s f.stop).fault = none := hs
  rw [readString, if_pos hq, Literal.read_eq_error_iff.mpr h]
  dsimp only
  rw [failAt, Session.fail, hfault]
  rfl

/-- What literal and flaw there are: one of them. -/
theorem exists_literal_or_flaw (hq : s.state.here? = some quote) :
    (∃ (l : StringLiteral) (back : Bytes), rest s = l.text ++ back) ∨ ∃ f, FlawedHere s f := by
  cases hread : Literal.read s.state.source s.state.position with
  | ok r =>
      obtain ⟨l, back, hr, -⟩ := (Literal.read_eq_ok_iff hq).mp hread
      exact .inl ⟨l, back, hr⟩
  | error f => exact .inr ⟨f, Literal.read_eq_error_iff.mp hread⟩

/-- What is handed out are the bytes that are meant. -/
theorem bytes_stringToken {l : StringLiteral} {back : Bytes} (h : rest s = l.text ++ back) :
    (stringToken s l).characters.bytes = l.bytes := by
  have htext := congrArg Text.bytes (text_stringToken h)
  rw [StringToken.text] at htext
  split at htext <;> exact htext

/-- **A string is read, or what offends first is told.**  At a quote, with no error on record,
reading goes well exactly when a literal stands there.  Then its bytes are handed out, as a stretch
of the document exactly when there is no backslash, and the cursor is behind the closing quote. 
Otherwise there is something that offends, with nothing but characters of a literal before it, and
it is told as what it is and where it stands. -/
theorem string_read_or_offence_told (hs : s.fault = none) (hq : s.state.here? = some quote) :
    ((readString s).2.fault = none ↔ ∃ (l : StringLiteral) (back : Bytes), rest s = l.text ++ back) ∧
    (∀ (l : StringLiteral) (back : Bytes), rest s = l.text ++ back →
      readString s = (stringToken s l, moveTo s (s.state.position + l.text.length)) ∧
        (stringToken s l).characters.bytes = l.bytes) ∧
    ((readString s).2.fault ≠ none ↔ ∃ f, FlawedHere s f) ∧
    ∀ f, FlawedHere s f → readString s = (.none, { moveTo s f.stop with
      fault := some (Error.locate s.state.source f.code f.offset) }) := by
  have hliteral : (∃ (l : StringLiteral) (back : Bytes), rest s = l.text ++ back) →
      (readString s).2.fault = none := by
    rintro ⟨l, back, hr⟩
    rw [readString_of_literal hs hr]
    exact hs
  have hflaw : (∃ f, FlawedHere s f) → (readString s).2.fault ≠ none := by
    rintro ⟨f, h⟩
    rw [readString_of_flawed hs hq h]
    exact Option.some_ne_none _
  refine ⟨⟨fun h => ?_, hliteral⟩, fun l back hr => ⟨readString_of_literal hs hr,
    bytes_stringToken hr⟩, ⟨fun h => ?_, hflaw⟩, fun f h => readString_of_flawed hs hq h⟩
  · exact (exists_literal_or_flaw hq).resolve_right fun hf => hflaw hf h
  · exact (exists_literal_or_flaw hq).resolve_left fun hl => h (hliteral hl)

/-- The first half of a surrogate pair, and a letter where the second half should begin. -/
theorem string_read_or_offence_told_highAlone :
    let s := start (.ofBytes 0 (Bytes.ofString "\"a\\uD83Dx\"")) {}
    s.fault = none ∧ s.state.here? = some quote ∧
      FlawedHere s ⟨.invalidSurrogate, 8, 8⟩ ∧
      (readString s).2.fault = some ⟨.invalidSurrogate, 8, 1, 9⟩ := by
  intro s
  have hhigh : Literal.Miscoded 4 (Bytes.ofString "D83Dx\"") ⟨.invalidSurrogate, 8, 8⟩ := by
    have hdigits : HexFour (Bytes.ofString "D83D") (0xD800 + 0x3D) :=
      .mk (w := 13) (x := 8) (y := 3) (z := 13) (by decide) (by decide) (by decide) (by decide)
    have hletter : ∀ rest, Bytes.ofString "x\"" ≠ backslash :: 'u'.toUInt8 :: rest := by
      intro rest h
      exact absurd (List.cons.inj h).1 (by decide)
    exact .highAlone hdigits (by decide) hletter
  have hplain : ∀ p ∈ [(⟨['a'.toUInt8], ['a'.toUInt8]⟩ : Piece)], p.Legal := by
    intro p hp
    rw [List.mem_singleton.mp hp]
    exact .inl (Literal.plain_of_isPlain (by decide))
  have hflaw : FlawedHere s ⟨.invalidSurrogate, 8, 8⟩ :=
    ⟨_, Bytes.ofString "\\uD83Dx\"", hplain, rfl, .inr (.code hhigh)⟩
  refine ⟨rfl, rfl, hflaw, ?_⟩
  rw [(string_read_or_offence_told rfl rfl).2.2.2 _ hflaw]
  rfl

end Reader

end JsonTree
