import JsonTree.Proofs.Cursor
import Mathlib.Computability.Language

/-!
# The pattern of numbers — which bytes are a number, and which stand at a place as one

The bytes of a number are a regular language, put together here from classes of bytes without a word
on how a number is read: `-?(0|[1-9][0-9]*)(\.[0-9]+)?([eE][+-]?[0-9]+)?`.

Some bytes stand as a number in front of others (`Stands`) when nothing longer there matches and
what follows does not look like more of the same number, which would make the whole malformed.

* `mem_number_iff`: what matches the pattern are the texts of proper numerals.
* `stands_iff`: a number stands in front of other bytes exactly when its numeral ends before them.
* `exists_numeralAt_iff`: a numeral is found at an index exactly where a number stands.
-/

namespace JsonTree

open Ascii Bytes
open scoped Computability

/-! ### The pattern -/

namespace Pattern

/-- One byte that passes the test. -/
def one (test : UInt8 → Bool) : Language UInt8 :=
  {bs | ∃ b, test b = true ∧ bs = [b]}

/-- What is in the language, or nothing. -/
def maybe (l : Language UInt8) : Language UInt8 :=
  l + 1

/-- One digit or more, `[0-9]+`. -/
def digits : Language UInt8 :=
  one isDigit * (one isDigit)∗

/-- Digits before the point, `0|[1-9][0-9]*`. -/
def whole : Language UInt8 :=
  one (· == zero) + one (fun b => 0x31 ≤ b && b ≤ nine) * (one isDigit)∗

/-- A point and digits, `\.[0-9]+`. -/
def fraction : Language UInt8 :=
  one (· == point) * digits

/-- A power of ten, `[eE][+-]?[0-9]+`. -/
def exponent : Language UInt8 :=
  one isMark * (maybe (one isSign) * digits)

/-- A number, `-?(0|[1-9][0-9]*)(\.[0-9]+)?([eE][+-]?[0-9]+)?`. -/
def number : Language UInt8 :=
  maybe (one (· == minus)) * (whole * (maybe fraction * maybe exponent))

variable {test : UInt8 → Bool} {bs : Bytes}

theorem mem_maybe {l : Language UInt8} : bs ∈ maybe l ↔ bs ∈ l ∨ bs = [] := by
  rw [maybe, Language.mem_add, Language.mem_one]

theorem mem_one_mul {l : Language UInt8} :
    bs ∈ one test * l ↔ ∃ b rest, test b = true ∧ rest ∈ l ∧ bs = b :: rest := by
  rw [Language.mem_mul]
  constructor
  · rintro ⟨-, ⟨b, hb, rfl⟩, rest, hrest, rfl⟩
    exact ⟨b, rest, hb, hrest, rfl⟩
  · rintro ⟨b, rest, hb, hrest, rfl⟩
    exact ⟨[b], ⟨b, hb, rfl⟩, rest, hrest, rfl⟩

/-- Any number of bytes that pass a test. -/
theorem mem_kstar_one : bs ∈ (one test)∗ ↔ ∀ b ∈ bs, test b = true := by
  rw [Language.mem_kstar]
  constructor
  · rintro ⟨parts, rfl, hparts⟩ b hb
    obtain ⟨part, hmem, hb⟩ := List.mem_flatten.mp hb
    obtain ⟨c, hc, rfl⟩ := hparts part hmem
    exact List.mem_singleton.mp hb ▸ hc
  · intro h
    refine ⟨bs.map ([·]), by rw [← List.flatMap_def, List.flatMap_singleton'], ?_⟩
    intro part hpart
    obtain ⟨b, hb, rfl⟩ := List.mem_map.mp hpart
    exact ⟨b, h b hb, rfl⟩

/-- The pattern of digits is met by nonempty runs of digits. -/
theorem mem_digits_iff : bs ∈ digits ↔ Digits bs := by
  rw [digits, mem_one_mul]
  simp only [mem_kstar_one]
  constructor
  · rintro ⟨b, rest, hb, hrest, rfl⟩
    exact ⟨List.cons_ne_nil _ _, List.forall_mem_cons.mpr ⟨hb, hrest⟩⟩
  · intro h
    obtain ⟨b, rest, rfl, hb, hrest⟩ := h.exists_cons
    exact ⟨b, rest, hb, hrest, rfl⟩

/-- The digits that may come first of several. -/
theorem leading_iff : ∀ b : UInt8,
    ((0x31 : UInt8) ≤ b && b ≤ nine) = true ↔ isDigit b = true ∧ b ≠ zero :=
  forall_byte (by decide)

/-- The whole part begins with a zero only if that is all of it. -/
theorem mem_whole_iff : bs ∈ whole ↔ Digits bs ∧ (bs.head? = some zero → bs.length = 1) := by
  rw [whole, Language.mem_add, mem_one_mul]
  simp only [mem_kstar_one, leading_iff]
  constructor
  · rintro (⟨b, hb, rfl⟩ | ⟨b, rest, ⟨hb, hne⟩, hrest, rfl⟩)
    · obtain rfl := beq_iff_eq.mp hb
      exact ⟨⟨List.cons_ne_nil _ _, List.forall_mem_singleton.mpr rfl⟩, fun _ => rfl⟩
    · exact ⟨⟨List.cons_ne_nil _ _, List.forall_mem_cons.mpr ⟨hb, hrest⟩⟩,
        fun h => absurd (Option.some.inj h) hne⟩
  · rintro ⟨hdigits, hzero⟩
    obtain ⟨b, rest, rfl, hb, hrest⟩ := hdigits.exists_cons
    by_cases h : b = zero
    · subst h
      obtain rfl : rest = [] := List.length_eq_zero_iff.mp (Nat.succ.inj (hzero rfl))
      exact .inl ⟨zero, rfl, rfl⟩
    · exact .inr ⟨b, rest, ⟨hb, h⟩, hrest, rfl⟩

/-- A sign is a minus or nothing. -/
theorem mem_minus_iff :
    bs ∈ maybe (one (· == minus)) ↔ ∃ negative : Bool, bs = if negative then [minus] else [] := by
  rw [mem_maybe]
  constructor
  · rintro (⟨b, hb, rfl⟩ | rfl)
    · exact ⟨true, by rw [beq_iff_eq.mp hb]; rfl⟩
    · exact ⟨false, rfl⟩
  · rintro ⟨negative, rfl⟩
    cases negative with
    | false => exact .inr rfl
    | true => exact .inl ⟨minus, rfl, rfl⟩

/-- The fraction is a point with digits behind it, or nothing. -/
theorem mem_fraction_iff : bs ∈ maybe fraction ↔
    ∃ f : Option Bytes, (∀ ds ∈ f, Digits ds) ∧ bs = Numeral.fractionText f := by
  rw [mem_maybe, fraction, mem_one_mul]
  simp only [mem_digits_iff]
  constructor
  · rintro (⟨b, ds, hb, hds, rfl⟩ | rfl)
    · obtain rfl := beq_iff_eq.mp hb
      exact ⟨some ds, fun _ h => Option.mem_some.mp h ▸ hds, rfl⟩
    · exact ⟨none, by simp, rfl⟩
  · rintro ⟨f, hf, rfl⟩
    cases f with
    | none => exact .inr rfl
    | some ds => exact .inl ⟨point, ds, rfl, hf ds rfl, rfl⟩

/-- The sign of an exponent is there or not. -/
theorem mem_sign_iff : bs ∈ maybe (one isSign) ↔
    ∃ sign : Option UInt8, (∀ s ∈ sign, isSign s = true) ∧ bs = sign.toList := by
  rw [mem_maybe]
  constructor
  · rintro (⟨b, hb, rfl⟩ | rfl)
    · exact ⟨some b, fun _ h => Option.mem_some.mp h ▸ hb, rfl⟩
    · exact ⟨none, by simp, rfl⟩
  · rintro ⟨sign, hsign, rfl⟩
    cases sign with
    | none => exact .inr rfl
    | some b => exact .inl ⟨b, hsign b rfl, rfl⟩

/-- The exponent is a mark with a sign and digits behind it, or nothing. -/
theorem mem_exponent_iff : bs ∈ maybe exponent ↔
    ∃ e : Option Exponent, (∀ e' ∈ e, e'.Proper) ∧ bs = Numeral.exponentText e := by
  rw [mem_maybe, exponent, mem_one_mul]
  simp only [Language.mem_mul, mem_sign_iff, mem_digits_iff]
  constructor
  · rintro (⟨b, -, hb, ⟨-, ⟨sign, hsign, rfl⟩, ds, hds, rfl⟩, rfl⟩ | rfl)
    · exact ⟨some ⟨b, sign, ds⟩, fun _ h => Option.mem_some.mp h ▸ ⟨hb, hsign, hds⟩, rfl⟩
    · exact ⟨none, by simp, rfl⟩
  · rintro ⟨e, he, rfl⟩
    cases e with
    | none => exact .inr rfl
    | some e =>
        obtain ⟨hmark, hsign, hds⟩ := he e rfl
        exact .inl ⟨e.mark, _, hmark, ⟨_, ⟨e.sign, hsign, rfl⟩, e.digits, hds, rfl⟩, rfl⟩

/-- **What matches the pattern are the numbers of the grammar.** -/
theorem mem_number_iff : bs ∈ number ↔ ∃ n : NumberLiteral, n.text = bs := by
  simp only [number, Language.mem_mul, mem_minus_iff, mem_whole_iff, mem_fraction_iff,
    mem_exponent_iff]
  constructor
  · rintro ⟨-, ⟨negative, rfl⟩, -, ⟨whole, ⟨hdigits, hzero⟩, -, ⟨-, ⟨f, hf, rfl⟩, -,
      ⟨e, he, rfl⟩, rfl⟩, rfl⟩, rfl⟩
    exact ⟨⟨⟨negative, whole, f, e⟩, ⟨hdigits, hzero, hf, he⟩⟩, Numeral.text_eq _⟩
  · rintro ⟨⟨⟨negative, whole, f, e⟩, ⟨hdigits, hzero, hf, he⟩⟩, rfl⟩
    exact ⟨_, ⟨negative, rfl⟩, _, ⟨whole, ⟨hdigits, hzero⟩, _, ⟨_, ⟨f, hf, rfl⟩, _,
      ⟨e, he, rfl⟩, rfl⟩, rfl⟩, (Numeral.text_eq ⟨negative, whole, f, e⟩).symm⟩

end Pattern

/-! ### Numbers in front of other bytes -/

/-- The first bytes stand as a number in front of the others: they match, nothing longer does, and
what follows is no digit behind a lone zero, no point behind whole digits alone, and no mark unless
the number has a power of ten. -/
structure Stands (token back : Bytes) : Prop where
  number : token ∈ Pattern.number
  longest : ∀ other ∈ Pattern.number, other <+: token ++ back → other.length ≤ token.length
  zero : token = [Ascii.zero] ∨ token = [minus, Ascii.zero] → Stops isDigit back
  point : (∀ b ∈ token, isDigit b = true ∨ b = minus) → Stops (· == Ascii.point) back
  mark : (∀ b ∈ token, isMark b = false) → Stops isMark back

namespace NumberLiteral

variable {n : NumberLiteral}

/-- Every byte of a number is the minus, or one of the whole part, the fraction or the exponent. -/
theorem mem_text_iff {b : UInt8} : b ∈ n.text ↔
    b ∈ (if n.numeral.negative then [minus] else []) ∨ b ∈ n.numeral.whole ∨
      b ∈ Numeral.fractionText n.numeral.fraction ∨ b ∈ Numeral.exponentText n.numeral.exponent := by
  rw [text, Numeral.text_eq]
  simp only [List.mem_append]

theorem isMark_of_isDigit : ∀ b : UInt8, isDigit b = true → isMark b = false :=
  forall_byte (by decide)

/-- A mark shows that there is a power of ten. -/
theorem noMark_iff : (∀ b ∈ n.text, isMark b = false) ↔ n.numeral.exponent = none := by
  constructor
  · intro h
    cases he : n.numeral.exponent with
    | none => rfl
    | some e =>
        have hmem : e.mark ∈ n.text := by
          rw [mem_text_iff, he]
          exact .inr (.inr (.inr List.mem_cons_self))
        have hmark := h e.mark hmem
        rw [(n.proper.exponent e he).mark] at hmark
        cases hmark
  · intro he b hb
    rw [mem_text_iff, he] at hb
    rcases hb with hb | hb | hb | hb
    · split at hb
      · rw [List.mem_singleton.mp hb]
        rfl
      · cases hb
    · exact isMark_of_isDigit b (n.proper.whole.2 b hb)
    · cases hf : n.numeral.fraction with
      | none =>
          rw [hf] at hb
          cases hb
      | some ds =>
          rw [hf] at hb
          rcases List.mem_cons.mp hb with rfl | hb
          · rfl
          · exact isMark_of_isDigit b ((n.proper.fraction ds hf).2 b hb)
    · cases hb

/-- Digits and a sign alone show that there is neither fraction nor power of ten. -/
theorem bare_iff : (∀ b ∈ n.text, isDigit b = true ∨ b = minus) ↔
    n.numeral.fraction = none ∧ n.numeral.exponent = none := by
  constructor
  · intro h
    constructor
    · cases hf : n.numeral.fraction with
      | none => rfl
      | some ds =>
          have hmem : point ∈ n.text := by
            rw [mem_text_iff, hf]
            exact .inr (.inr (.inl List.mem_cons_self))
          exact absurd (h point hmem) (by decide)
    · rw [← noMark_iff]
      intro b hb
      rcases h b hb with hd | rfl
      · exact isMark_of_isDigit b hd
      · rfl
  · rintro ⟨hf, he⟩ b hb
    rw [mem_text_iff, hf, he] at hb
    rcases hb with hb | hb | hb | hb
    · split at hb
      · exact .inr (List.mem_singleton.mp hb)
      · cases hb
    · exact .inl (n.proper.whole.2 b hb)
    · cases hb
    · cases hb

/-- A run of digits with one more is a run of digits. -/
theorem digits_concat {ds : Bytes} {d : UInt8} (h : Digits ds) (hd : isDigit d = true) :
    Digits (ds ++ [d]) :=
  ⟨by simp, List.forall_mem_append.mpr ⟨h.2, List.forall_mem_singleton.mpr hd⟩⟩

/-- A number takes one more digit unless it is a lone zero. -/
theorem exists_text_concat {d : UInt8} (hd : isDigit d = true)
    (hzero : ¬ (n.text = [zero] ∨ n.text = [minus, zero])) :
    ∃ m : NumberLiteral, m.text = n.text ++ [d] := by
  obtain ⟨⟨negative, whole, fraction, exponent⟩, ⟨hwhole, hlone, hfraction, hexponent⟩⟩ := n
  -- the digit goes to the last part that there is
  cases exponent with
  | some e =>
      obtain ⟨hmark, hsign, hds⟩ := hexponent e rfl
      refine ⟨⟨⟨negative, whole, fraction, some ⟨e.mark, e.sign, e.digits ++ [d]⟩⟩,
        ⟨hwhole, hlone, hfraction, fun _ h => ?_⟩⟩, ?_⟩
      · exact Option.mem_some.mp h ▸ ⟨hmark, hsign, digits_concat hds hd⟩
      · simp [text, Numeral.text_eq, Numeral.exponentText, Exponent.text]
  | none =>
      cases fraction with
      | some ds =>
          refine ⟨⟨⟨negative, whole, some (ds ++ [d]), none⟩, ⟨hwhole, hlone, fun _ h => ?_,
            hexponent⟩⟩, ?_⟩
          · exact Option.mem_some.mp h ▸ digits_concat (hfraction ds rfl) hd
          · simp [text, Numeral.text_eq, Numeral.exponentText, Numeral.fractionText]
      | none =>
          refine ⟨⟨⟨negative, whole ++ [d], none, none⟩, ⟨digits_concat hwhole hd, fun h => ?_,
            hfraction, hexponent⟩⟩, ?_⟩
          · rw [List.head?_append_of_ne_nil _ hwhole.1] at h
            obtain ⟨b, hb⟩ := List.length_eq_one_iff.mp (hlone h)
            subst hb
            obtain rfl := Option.some.inj h
            refine absurd ?_ hzero
            cases negative with
            | false => exact .inl rfl
            | true => exact .inr rfl
          · simp [text, Numeral.text_eq, Numeral.exponentText, Numeral.fractionText]

end NumberLiteral

namespace Numeral

/-- What a numeral ends before, it ends before every beginning of. -/
theorem EndsBefore.of_append {n : Numeral} {front back : Bytes}
    (h : n.EndsBefore (front ++ back)) : n.EndsBefore front := by
  cases front with
  | nil => exact n.endsBefore_nil
  | cons b front => exact ⟨by simpa using h.digit, by simpa using h.point, by simpa using h.mark⟩

end Numeral

/-- A number is one only with itself: what its numeral ends before makes no other of it. -/
theorem NumberLiteral.eq_of_text_append {m n : NumberLiteral} {more : Bytes}
    (h : m.text = n.text ++ more) (hends : n.numeral.EndsBefore more) :
    m.numeral = n.numeral ∧ more = [] := by
  have hshort : Numeral.scan m.text = some (n.numeral, more) :=
    Numeral.scan_eq_some_iff.mpr ⟨n.proper, h, hends⟩
  have hlong : Numeral.scan m.text = some (m.numeral, []) :=
    Numeral.scan_eq_some_iff.mpr ⟨m.proper, (List.append_nil _).symm, m.numeral.endsBefore_nil⟩
  rw [hshort, Option.some.injEq, Prod.mk.injEq] at hlong
  exact ⟨hlong.1.symm, hlong.2⟩

/-- **A number stands in front of other bytes exactly when its numeral ends before them.** -/
theorem stands_iff {token back : Bytes} :
    Stands token back ↔ ∃ n : NumberLiteral, n.text = token ∧ n.numeral.EndsBefore back := by
  constructor
  · rintro ⟨hnumber, hlongest, hzero, hpoint, hmark⟩
    obtain ⟨n, rfl⟩ := Pattern.mem_number_iff.mp hnumber
    refine ⟨n, rfl, ?_, fun hf he => hpoint (NumberLiteral.bare_iff.mpr ⟨hf, he⟩),
      fun he => hmark (NumberLiteral.noMark_iff.mpr he)⟩
    by_cases h : n.text = [zero] ∨ n.text = [minus, zero]
    · exact hzero h
    · -- another digit would make a longer number
      cases back with
      | nil => exact stops_nil _
      | cons d back =>
          rw [stops_cons]
          by_contra hd
          rw [Bool.not_eq_false] at hd
          obtain ⟨m, hm⟩ := NumberLiteral.exists_text_concat hd h
          have hle := hlongest m.text (Pattern.mem_number_iff.mpr ⟨m, rfl⟩)
            ⟨back, by rw [hm, List.append_assoc, List.singleton_append]⟩
          rw [hm, List.length_append, List.length_singleton] at hle
          omega
  · rintro ⟨n, rfl, hends⟩
    refine ⟨Pattern.mem_number_iff.mpr ⟨n, rfl⟩, ?_, fun _ => hends.digit, fun h => ?_, fun h => ?_⟩
    · intro other hother hprefix
      obtain ⟨m, rfl⟩ := Pattern.mem_number_iff.mp hother
      by_contra hlt
      rw [Nat.not_le] at hlt
      obtain ⟨more, hmore⟩ := List.prefix_of_prefix_length_le (List.prefix_append n.text back)
        hprefix hlt.le
      obtain ⟨behind, hbehind⟩ := hprefix
      rw [← hmore, List.append_assoc] at hbehind
      rw [← List.append_cancel_left hbehind] at hends
      obtain ⟨-, rfl⟩ := NumberLiteral.eq_of_text_append hmore.symm hends.of_append
      rw [← hmore, List.append_nil] at hlt
      exact Nat.lt_irrefl _ hlt
    · obtain ⟨hf, he⟩ := NumberLiteral.bare_iff.mp h
      exact hends.point hf he
    · exact hends.mark (NumberLiteral.noMark_iff.mp h)

/-- **A numeral is found at an index exactly where a number stands**, and ends where it ends. -/
theorem exists_numeralAt_iff {s : Slice} {i j : Nat} :
    (∃ n, Reader.numeralAt s i = some (n, j)) ↔
      ∃ token back, s.rest i = token ++ back ∧ j = i + token.length ∧ Stands token back := by
  simp only [Numeral.numeralAt_eq_some_iff, stands_iff]
  constructor
  · rintro ⟨n, hproper, ⟨back, hrest, hends⟩, hj⟩
    exact ⟨n.text, back, hrest, hj, ⟨n, hproper⟩, rfl, hends⟩
  · rintro ⟨-, back, hrest, hj, n, rfl, hends⟩
    exact ⟨n.numeral, n.proper, ⟨back, hrest, hends⟩, hj⟩

/-! ### Numbers at a cursor -/

/-- The text of a number is a longest match exactly when the number ends before what follows. -/
theorem stands_text_iff {n : NumberLiteral} {back : Bytes} :
    Stands n.text back ↔ n.numeral.EndsBefore back := by
  rw [stands_iff]
  constructor
  · rintro ⟨m, hm, hends⟩
    have hsame := (NumberLiteral.eq_of_text_append (hm.trans (List.append_nil _).symm)
      n.numeral.endsBefore_nil).1
    exact hsame ▸ hends
  · exact fun hends => ⟨n, rfl, hends⟩

namespace Reader

/-- A number stands behind the blanks at the cursor. -/
def NumberBehind (w : Blanks) (n : NumberLiteral) (s : Session Reader) : Prop :=
  ∃ back, rest s = w.text ++ (n.text ++ back) ∧ Stands n.text back

variable {w : Blanks} {n : NumberLiteral} {s : Session Reader}

/-- Behind the blanks the number stands at the cursor. -/
theorem NumberBehind.here (h : NumberBehind w n s) : NumberHere n (skip s w.text.length) := by
  obtain ⟨back, hr, hstands⟩ := h
  exact ⟨back, rest_skip hr, stands_text_iff.mp hstands⟩

theorem NumberBehind.skipBlank_eq (h : NumberBehind w n s) :
    skipBlank s = skip s w.text.length := by
  have hstops := h.here.stops
  obtain ⟨back, hr, -⟩ := h
  rw [rest_skip hr] at hstops
  exact Reader.skipBlank_eq w hr hstops

/-- **A number is read as an integer** when it is one that fits, and is left where it stands
otherwise. -/
theorem readInteger_of_number (h : NumberBehind w n s) : readInteger s =
    if n.numeral.isInteger then
      if Numeral.Fits n.numeral.toInt then
        (.value (Int64.ofInt n.numeral.toInt), skip s (w.text.length + n.text.length))
      else (.tooLarge, skip s w.text.length)
    else (.notInteger, skip s w.text.length) := by
  rw [← readInteger_skipBlank, h.skipBlank_eq, readInteger_of_numberHere h.here,
    Numeral.toInt64?_eq n.proper.whole, skip_skip]
  by_cases hfits : Numeral.Fits n.numeral.toInt
  · rw [if_pos hfits, if_pos hfits]
  · rw [if_neg hfits, if_neg hfits]

/-- **A number is read as the nearest floating point number**, integer or not, unless that is no
finite one. -/
theorem readFloat_of_number (h : NumberBehind w n s) : readFloat s =
    if n.nearest.isFinite then (n.nearest, skip s (w.text.length + n.text.length))
    else (Binary64.zero, failHere (skip s w.text.length) .numberOutOfRange) := by
  rw [← readFloat_skipBlank, h.skipBlank_eq, readFloat_of_numberHere h.here, skip_skip]

end Reader

end JsonTree
