import JsonTree.Reader.Literal
import JsonTree.Proofs.Utf8

/-!
# Pieces — the grammar of strings, and how an escape is read

A literal is a list of pieces between two quotes.  A piece stands for itself (`Piece.Plain`) or is
an escape (`Piece.Escape`): a letter behind a backslash, four hexadecimal digits, or two times four
that are the halves of a surrogate pair.

* `codePoint_eq_ok_iff`: what is read behind a backslash and a `u` is a character, never a half of a
  pair.
* `escape_eq_ok_iff`: an escape is read exactly when one of the grammar stands there.
-/

namespace JsonTree

open Ascii Bytes

/-! ### The grammar -/

/-- A character of a literal, as it is written and as it is meant. -/
structure Piece where
  /-- The bytes in the document. -/
  text : Bytes
  /-- The bytes that are meant. -/
  bytes : Bytes

/-- The letters that may follow a backslash, with what they stand for. -/
def escapeLetters : List (UInt8 × UInt8) :=
  [(quote, quote), (backslash, backslash), (slash, slash), ('b'.toUInt8, backspace),
    ('f'.toUInt8, formFeed), ('n'.toUInt8, newline), ('r'.toUInt8, carriageReturn),
    ('t'.toUInt8, tab)]

/-- A hexadecimal digit, in either case. -/
def HexDigit (b : UInt8) (n : Nat) : Prop :=
  n < 10 ∧ b.toNat = 0x30 + n ∨ 10 ≤ n ∧ n < 16 ∧ (b.toNat = 0x37 + n ∨ b.toNat = 0x57 + n)

/-- Four hexadecimal digits. -/
inductive HexFour : Bytes → Nat → Prop where
  | mk {a b c d : UInt8} {w x y z : Nat} : HexDigit a w → HexDigit b x → HexDigit c y →
      HexDigit d z → HexFour [a, b, c, d] (((w * 16 + x) * 16 + y) * 16 + z)

/-- A hexadecimal digit is less than sixteen. -/
theorem HexDigit.lt {b : UInt8} {n : Nat} (h : HexDigit b n) : n < 16 := by
  rcases h with h | h <;> omega

/-- Four digits are four bytes. -/
theorem HexFour.length_eq {digits : Bytes} {n : Nat} (h : HexFour digits n) :
    digits.length = 4 := by
  cases h
  rfl

/-- What four digits write is less than `0x10000`. -/
theorem HexFour.lt {digits : Bytes} {n : Nat} (h : HexFour digits n) : n < 0x10000 := by
  obtain ⟨ha, hb, hc, hd⟩ := h
  have := ha.lt
  have := hb.lt
  have := hc.lt
  have := hd.lt
  omega

namespace Piece

/-- A character that stands for itself: no control byte, no quote and no backslash. -/
inductive Plain : Piece → Prop where
  | mk {n : Nat} {c : Bytes} : Utf8.Encodes n c → 0x20 ≤ n → n ≠ 0x22 → n ≠ 0x5C → Plain ⟨c, c⟩

/-- A backslash and what it makes of the bytes behind it. -/
inductive Escape : Piece → Prop where
  | letter {b c : UInt8} : (b, c) ∈ escapeLetters → Escape ⟨[backslash, b], [c]⟩
  | unit {digits c : Bytes} {n : Nat} : HexFour digits n → Utf8.Encodes n c →
      Escape ⟨backslash :: 'u'.toUInt8 :: digits, c⟩
  | pair {high low c : Bytes} {x y : Nat} : HexFour high (0xD800 + x) → x < 0x400 →
      HexFour low (0xDC00 + y) → y < 0x400 → Utf8.Encodes (0x10000 + (x * 0x400 + y)) c →
      Escape ⟨backslash :: 'u'.toUInt8 :: (high ++ backslash :: 'u'.toUInt8 :: low), c⟩

/-- A character as the grammar has it. -/
def Legal (p : Piece) : Prop :=
  p.Plain ∨ p.Escape

end Piece

/-- A string literal. -/
structure StringLiteral where
  pieces : List Piece
  legal : ∀ p ∈ pieces, p.Legal

namespace Pieces

/-- The bytes in the document. -/
def text (ps : List Piece) : Bytes :=
  ps.flatMap Piece.text

/-- The bytes that are meant. -/
def bytes (ps : List Piece) : Bytes :=
  ps.flatMap Piece.bytes

@[simp] theorem text_nil : text [] = [] := rfl

@[simp] theorem bytes_nil : bytes [] = [] := rfl

@[simp] theorem text_cons (p : Piece) (ps : List Piece) : text (p :: ps) = p.text ++ text ps :=
  List.flatMap_cons

@[simp] theorem bytes_cons (p : Piece) (ps : List Piece) : bytes (p :: ps) = p.bytes ++ bytes ps :=
  List.flatMap_cons

@[simp] theorem text_append (ps qs : List Piece) : text (ps ++ qs) = text ps ++ text qs :=
  List.flatMap_append

@[simp] theorem bytes_append (ps qs : List Piece) : bytes (ps ++ qs) = bytes ps ++ bytes qs :=
  List.flatMap_append

/-- Plain pieces mean what they are. -/
theorem bytes_of_plain {ps : List Piece} (h : ∀ p ∈ ps, p.Plain) : bytes ps = text ps := by
  induction ps with
  | nil => rfl
  | cons p ps ih =>
      obtain ⟨-, -, -, -⟩ := h p List.mem_cons_self
      rw [bytes_cons, text_cons, ih fun q hq => h q (List.mem_cons_of_mem _ hq)]

end Pieces

namespace StringLiteral

/-- The literal as it is written, with its quotes. -/
def text (l : StringLiteral) : Bytes :=
  quote :: (Pieces.text l.pieces ++ [quote])

/-- The bytes of the string that is meant. -/
def bytes (l : StringLiteral) : Bytes :=
  Pieces.bytes l.pieces

/-- A backslash stands in the literal. -/
def hasEscape (l : StringLiteral) : Bool :=
  (Pieces.text l.pieces).contains backslash

/-- The characters that are handed out when the literal stands at an index: a stretch of the
document between the quotes, unless there are escapes. -/
def characters (l : StringLiteral) (s : Slice) (i : Nat) : Characters :=
  if l.hasEscape then .loose l.bytes
  else .slice (s.between (i + 1) (i + 1 + (Pieces.text l.pieces).length))

end StringLiteral

namespace Literal

/-! ### Hexadecimal digits -/

instance (b : UInt8) (n : Nat) : Decidable (HexDigit b n) :=
  inferInstanceAs (Decidable (_ ∨ _))

/-- What has a value as a hexadecimal digit is one of that value. -/
theorem hexDigit_of_hexValue? : ∀ b : UInt8, ∀ n ∈ hexValue? b, HexDigit b n :=
  forall_byte (by decide)

/-- A hexadecimal digit has its value. -/
theorem hexValue?_of_hexDigit {b : UInt8} {n : Nat} (h : HexDigit b n) : hexValue? b = some n := by
  have hall : ∀ b : UInt8, ∀ n : Fin 16, HexDigit b n → hexValue? b = some n.val :=
    forall_byte (by decide)
  have hn : n < 16 := by
    rcases h with h | h <;> omega
  exact hall b ⟨n, hn⟩ h

/-- **The values of hexadecimal digits are theirs.** -/
theorem hexValue?_eq_some_iff {b : UInt8} {n : Nat} : hexValue? b = some n ↔ HexDigit b n :=
  ⟨hexDigit_of_hexValue? b n, hexValue?_of_hexDigit⟩

/-- Shifting makes room for the lower bits, so that setting them adds them. -/
theorem shiftLeft_or {a b k : Nat} (h : b < 2 ^ k) : a <<< k ||| b = a * 2 ^ k + b := by
  rw [← Nat.shiftLeft_add_eq_or_of_lt h, Nat.shiftLeft_eq]

theorem shiftLeft_digit (a b k : Nat) : a * 2 ^ (k + 4) + b <<< k = (a * 16 + b) <<< k := by
  rw [Nat.shiftLeft_eq, Nat.shiftLeft_eq, Nat.pow_add, Nat.add_mul, Nat.mul_assoc,
    Nat.mul_comm (2 ^ k)]

/-- Four digits are joined as they are read in base sixteen. -/
theorem joinFour {w x y z : Nat} (hx : x < 16) (hy : y < 16) (hz : z < 16) :
    w <<< 12 ||| x <<< 8 ||| y <<< 4 ||| z = ((w * 16 + x) * 16 + y) * 16 + z := by
  have hx' : x <<< 8 < 2 ^ 12 := by rw [Nat.shiftLeft_eq]; omega
  have hy' : y <<< 4 < 2 ^ 8 := by rw [Nat.shiftLeft_eq]; omega
  rw [shiftLeft_or hx', shiftLeft_digit w x 8, shiftLeft_or hy', shiftLeft_digit _ y 4,
    shiftLeft_or hz]
  rfl

/-- **Four hexadecimal digits are read exactly when they stand there.** -/
theorem hexFour?_eq_some_iff {s : Slice} {i n : Nat} :
    hexFour? s i = some n ↔ ∃ digits back, HexFour digits n ∧ s.rest i = digits ++ back := by
  rw [hexFour?, Slice.ahead_eq_take]
  constructor
  · intro h
    split at h
    · next a b c d hd =>
        simp only [Option.bind_eq_bind, Option.bind_eq_some_iff, Option.pure_def,
          Option.some.injEq, hexValue?_eq_some_iff] at h
        obtain ⟨w, hw, x, hx, y, hy, z, hz, rfl⟩ := h
        refine ⟨[a, b, c, d], (s.rest i).drop 4, ?_, ?_⟩
        · rw [joinFour hx.lt hy.lt hz.lt]
          exact .mk hw hx hy hz
        · rw [← hd, List.take_append_drop]
    · cases h
  · rintro ⟨digits, back, ⟨ha, hb, hc, hd⟩, hr⟩
    have htake (a b c d : UInt8) : ([a, b, c, d] ++ back).take 4 = [a, b, c, d] := rfl
    rw [hr, htake]
    simp only [Option.bind_eq_bind, Option.pure_def, hexValue?_of_hexDigit ha,
      hexValue?_of_hexDigit hb, hexValue?_of_hexDigit hc, hexValue?_of_hexDigit hd,
      Option.bind_some, joinFour hb.lt hc.lt hd.lt]

/-! ### Escapes -/

/-- The escapes of one letter are those of the table. -/
theorem simpleEscape?_eq_some_iff {b c : UInt8} :
    simpleEscape? b = some c ↔ (b, c) ∈ escapeLetters := by
  have hsound : ∀ b : UInt8,
      (simpleEscape? b).all (fun c => escapeLetters.contains (b, c)) = true :=
    forall_byte (by decide)
  have hcomplete : escapeLetters.all (fun p => simpleEscape? p.1 == some p.2) = true := by
    decide
  constructor
  · intro h
    have hb := hsound b
    rw [h] at hb
    exact List.contains_iff_mem.mp hb
  · exact fun h => beq_iff_eq.mp (List.all_eq_true.mp hcomplete (b, c) h)

/-- High surrogates are the `0x400` codes from `0xD800` on. -/
theorem isHighSurrogate_iff (n : Nat) :
    isHighSurrogate n = true ↔ ∃ x, n = 0xD800 + x ∧ x < 0x400 := by
  simp only [isHighSurrogate, Bool.and_eq_true, decide_eq_true_eq]
  constructor
  · intro h
    exact ⟨n - 0xD800, by omega, by omega⟩
  · rintro ⟨x, rfl, hx⟩
    omega

/-- Low surrogates are the `0x400` codes from `0xDC00` on. -/
theorem isLowSurrogate_iff (n : Nat) :
    isLowSurrogate n = true ↔ ∃ x, n = 0xDC00 + x ∧ x < 0x400 := by
  simp only [isLowSurrogate, Bool.and_eq_true, decide_eq_true_eq]
  constructor
  · intro h
    exact ⟨n - 0xDC00, by omega, by omega⟩
  · rintro ⟨x, rfl, hx⟩
    omega

/-- Two surrogates are joined to the code point that they stand for. -/
theorem joinSurrogates_eq {x y : Nat} (hy : y < 0x400) :
    joinSurrogates (0xD800 + x) (0xDC00 + y) = 0x10000 + (x * 0x400 + y) := by
  rw [joinSurrogates, Nat.add_sub_cancel_left, Nat.add_sub_cancel_left,
    shiftLeft_or (k := 10) (by omega)]
  omega

/-- The expected bytes stand at an index when they are the first from there on. -/
theorem startsAt_iff {s : Slice} {i : Nat} {expected : Bytes} :
    s.startsAt i expected = true ↔ ∃ back, s.rest i = expected ++ back := by
  rw [Slice.startsAt, Slice.ahead_eq_take, beq_iff_eq]
  constructor
  · intro h
    refine ⟨(s.rest i).drop expected.length, ?_⟩
    rw [← List.take_append_drop expected.length (s.rest i), h, List.drop_left]
  · rintro ⟨back, hr⟩
    rw [hr, List.take_left]

/-- A code point that has an encoding is no high surrogate. -/
theorem not_highSurrogate {n : Nat} {c : Bytes} (h : Utf8.Encodes n c) :
    ¬ isHighSurrogate n = true := by
  have hscalar := (Utf8.isScalar_iff n).mp h.isScalar
  rw [isHighSurrogate_iff]
  rintro ⟨x, rfl, hx⟩
  omega

/-- A code point that has an encoding is no low surrogate. -/
theorem not_lowSurrogate {n : Nat} {c : Bytes} (h : Utf8.Encodes n c) :
    ¬ isLowSurrogate n = true := by
  have hscalar := (Utf8.isScalar_iff n).mp h.isScalar
  rw [isLowSurrogate_iff]
  rintro ⟨x, rfl, hx⟩
  omega

/-- Four digits that name no surrogate name a character. -/
theorem encodes_of_not_surrogate {n : Nat} (hlt : n < 0x10000) (hhigh : ¬ isHighSurrogate n = true)
    (hlow : ¬ isLowSurrogate n = true) : Utf8.Encodes n (Utf8.encode n) := by
  rw [isHighSurrogate_iff] at hhigh
  rw [isLowSurrogate_iff] at hlow
  refine Utf8.encodes_encode ((Utf8.isScalar_iff _).mpr ?_)
  by_contra hc
  rcases Nat.lt_or_ge n 0xDC00 with h | h
  · exact hhigh ⟨n - 0xD800, by omega, by omega⟩
  · exact hlow ⟨n - 0xDC00, by omega, by omega⟩

/-- A surrogate pair always names a character. -/
theorem encodes_joinSurrogates {x y : Nat} (hx : x < 0x400) (hy : y < 0x400) :
    Utf8.Encodes (0x10000 + (x * 0x400 + y))
      (Utf8.encode (joinSurrogates (0xD800 + x) (0xDC00 + y))) := by
  rw [joinSurrogates_eq hy]
  refine Utf8.encodes_encode ((Utf8.isScalar_iff _).mpr ?_)
  omega

/-- Four digits of a code point that has an encoding are read as that. -/
theorem codePoint_unit {s : Slice} {i n : Nat} {digits back bs : Bytes} (hd : HexFour digits n)
    (he : Utf8.Encodes n bs) (hr : s.rest i = digits ++ back) : codePoint s i = .ok (bs, i + 4) := by
  rw [codePoint, hexFour?_eq_some_iff.mpr ⟨digits, back, hd, hr⟩]
  simp only [if_neg (not_highSurrogate he), if_neg (not_lowSurrogate he), he.encode_eq]

/-- A pair of surrogates is read as the code point it stands for. -/
theorem codePoint_pair {s : Slice} {i x y : Nat} {high low back bs : Bytes}
    (hh : HexFour high (0xD800 + x)) (hx : x < 0x400) (hl : HexFour low (0xDC00 + y))
    (hy : y < 0x400) (he : Utf8.Encodes (0x10000 + (x * 0x400 + y)) bs)
    (hr : s.rest i = high ++ backslash :: 'u'.toUInt8 :: (low ++ back)) :
    codePoint s i = .ok (bs, i + 10) := by
  have h₁ : s.rest (i + 4) = [backslash, 'u'.toUInt8] ++ (low ++ back) := by
    rw [← hh.length_eq]
    exact Slice.rest_add_length hr
  have h₂ : s.rest (i + 6) = low ++ back := Slice.rest_add_length h₁
  have hhigh : isHighSurrogate (0xD800 + x) = true := (isHighSurrogate_iff _).mpr ⟨x, rfl, hx⟩
  have hlow : isLowSurrogate (0xDC00 + y) = true := (isLowSurrogate_iff _).mpr ⟨y, rfl, hy⟩
  have hstarts : s.startsAt (i + 4) [backslash, 'u'.toUInt8] = true := startsAt_iff.mpr ⟨_, h₁⟩
  rw [codePoint, hexFour?_eq_some_iff.mpr ⟨high, _, hh, hr⟩]
  simp only [if_pos hhigh, if_pos hlow, if_pos hstarts,
    hexFour?_eq_some_iff.mpr ⟨low, back, hl, h₂⟩, joinSurrogates_eq hy, he.encode_eq]

/-- The code point behind `\u` is read exactly when four digits name a character or two times four
name one as a surrogate pair. -/
theorem codePoint_eq_ok_iff {s : Slice} {i j : Nat} {bs : Bytes} :
    codePoint s i = .ok (bs, j) ↔
      (∃ digits n back, HexFour digits n ∧ Utf8.Encodes n bs ∧ s.rest i = digits ++ back ∧
        j = i + 4) ∨
      ∃ high x low y back, HexFour high (0xD800 + x) ∧ x < 0x400 ∧ HexFour low (0xDC00 + y) ∧
        y < 0x400 ∧ Utf8.Encodes (0x10000 + (x * 0x400 + y)) bs ∧
        s.rest i = high ++ backslash :: 'u'.toUInt8 :: (low ++ back) ∧ j = i + 10 := by
  constructor
  · intro h
    rw [codePoint] at h
    cases hn : hexFour? s i with
    | none => simp [hn] at h
    | some n =>
        obtain ⟨digits, back, hd, hr⟩ := hexFour?_eq_some_iff.mp hn
        simp only [hn] at h
        split at h
        · -- the first half of a pair: its second half has to follow
          next hhigh =>
            obtain ⟨x, rfl, hx⟩ := (isHighSurrogate_iff n).mp hhigh
            split at h
            · next hstarts =>
                obtain ⟨back', hr'⟩ := startsAt_iff.mp hstarts
                cases hm : hexFour? s (i + 6) with
                | none => simp [hm] at h
                | some m =>
                    obtain ⟨low, back'', hl, hr''⟩ := hexFour?_eq_some_iff.mp hm
                    simp only [hm] at h
                    split at h
                    · next hlow =>
                        obtain ⟨y, rfl, hy⟩ := (isLowSurrogate_iff m).mp hlow
                        obtain ⟨rfl, rfl⟩ := Prod.mk.inj (Except.ok.inj h)
                        refine .inr ⟨digits, x, low, y, back'', hd, hx, hl, hy,
                          encodes_joinSurrogates hx hy, ?_, rfl⟩
                        have h₁ : s.rest (i + 4) = back := by
                          rw [← hd.length_eq]
                          exact Slice.rest_add_length hr
                        have h₂ : s.rest (i + 6) = back' := Slice.rest_add_length hr'
                        rw [hr, ← h₁, hr', ← h₂, hr'']
                        rfl
                    · cases h
            · cases h
        · next hhigh =>
            split at h
            · cases h
            · next hlow =>
                obtain ⟨rfl, rfl⟩ := Prod.mk.inj (Except.ok.inj h)
                exact .inl ⟨digits, n, back, hd, encodes_of_not_surrogate hd.lt hhigh hlow, hr, rfl⟩
  · rintro (⟨digits, n, back, hd, he, hr, rfl⟩ |
      ⟨high, x, low, y, back, hh, hx, hl, hy, he, hr, rfl⟩)
    · exact codePoint_unit hd he hr
    · exact codePoint_pair hh hx hl hy he hr

/-- **An escape is read exactly when one of the grammar stands there.** -/
theorem escape_eq_ok_iff {s : Slice} {opened i j : Nat} {bs : Bytes}
    (h : s.get? i = some backslash) :
    escape s opened i = .ok (bs, j) ↔
      ∃ text back, Piece.Escape ⟨text, bs⟩ ∧ s.rest i = text ++ back ∧ j = i + text.length := by
  have hi := Slice.rest_eq_cons_of_get? h
  rw [escape]
  constructor
  · intro he
    cases hb : s.get? (i + 1) with
    | none => simp [hb] at he
    | some b =>
        have hr := Slice.rest_eq_cons_of_get? hb
        simp only [hb] at he
        split at he
        · next c hc =>
            obtain ⟨rfl, rfl⟩ := Prod.mk.inj (Except.ok.inj he)
            exact ⟨[backslash, b], _, .letter (simpleEscape?_eq_some_iff.mp hc), by rw [hi, hr]; rfl,
              rfl⟩
        · split at he
          · next hu =>
              obtain rfl := beq_iff_eq.mp hu
              rcases codePoint_eq_ok_iff.mp he with ⟨digits, n, back, hd, hn, hr', rfl⟩ |
                ⟨high, x, low, y, back, hh, hx, hl, hy, hn, hr', rfl⟩
              · refine ⟨_, back, .unit hd hn, ?_, ?_⟩
                · rw [hi, hr, hr']
                  rfl
                · simp only [List.length_cons, hd.length_eq]
              · refine ⟨_, back, .pair hh hx hl hy hn, ?_, ?_⟩
                · rw [hi, hr, hr']
                  simp
                · simp only [List.length_cons, List.length_append, hh.length_eq, hl.length_eq]
          · cases he
  · rintro ⟨text, back, hp, hr, rfl⟩
    cases hp with
    | @letter b c hbc =>
        have hb : s.get? (i + 1) = some b := by
          rw [Slice.get?_eq_head?, Slice.rest_add, hr]
          rfl
        rw [hb]
        simp only [simpleEscape?_eq_some_iff.mpr hbc]
        rfl
    | @unit digits _ n hd hn =>
        have hb : s.get? (i + 1) = some 'u'.toUInt8 := by
          rw [Slice.get?_eq_head?, Slice.rest_add, hr]
          rfl
        have hr₂ : s.rest (i + 2) = digits ++ back := by
          rw [Slice.rest_add, hr]
          rfl
        rw [hb, codePoint_unit hd hn hr₂]
        simp only [List.length_cons, hd.length_eq]
        rfl
    | @pair high low _ x y hh hx hl hy hn =>
        have hb : s.get? (i + 1) = some 'u'.toUInt8 := by
          rw [Slice.get?_eq_head?, Slice.rest_add, hr]
          rfl
        have hr₂ : s.rest (i + 2) = high ++ backslash :: 'u'.toUInt8 :: (low ++ back) := by
          rw [Slice.rest_add, hr]
          simp
        rw [hb, codePoint_pair hh hx hl hy hn hr₂]
        simp only [List.length_cons, List.length_append, hh.length_eq, hl.length_eq]
        rfl

end Literal

end JsonTree
