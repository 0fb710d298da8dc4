import JsonTree.Reader
import JsonTree.Proofs.Rounding
import JsonTree.Proofs.Scan

/-!
# Numerals — the grammar of numbers and how one is read

`Numeral.Proper` is the grammar of a number: whole digits without a leading zero, a fraction and a
power of ten with digits.  `EndsBefore` is what may follow it, so that no longer number stands
there.

* `scan_eq_some_iff`: a numeral is read exactly when a proper one stands at the front and ends
  there.
* `numeralAt_eq_some_iff`: the same at an index of a slice, where only the bytes that could belong
  to a numeral are looked at.
* `toInt64?_eq`: a whole number of any length is read as its exact value when that fits in 64 bits
  with a sign, and is refused otherwise; the sum kept along the way never wraps.
* `toBinary64_eq`: any number is read as the floating point number nearest to it.
-/

namespace JsonTree

open Ascii Bytes

/-- One digit or more. -/
def Digits (bs : Bytes) : Prop :=
  bs ≠ [] ∧ ∀ b ∈ bs, isDigit b = true

namespace Digits

/-- Digits are a first digit and the others. -/
theorem exists_cons {bs : Bytes} (h : Digits bs) :
    ∃ b rest, bs = b :: rest ∧ isDigit b = true ∧ ∀ c ∈ rest, isDigit c = true := by
  obtain ⟨hne, hall⟩ := h
  cases bs with
  | nil => exact absurd rfl hne
  | cons b rest =>
      exact ⟨b, rest, rfl, hall b List.mem_cons_self, fun c hc => hall c (List.mem_cons_of_mem _ hc)⟩

end Digits

/-- The letter before a power of ten. -/
def isMark (b : UInt8) : Bool :=
  b == 'e'.toUInt8 || b == 'E'.toUInt8

/-- A sign in a power of ten. -/
def isSign (b : UInt8) : Bool :=
  b == plus || b == minus

/-- A power of ten as the grammar has it. -/
structure Exponent.Proper (e : Exponent) : Prop where
  mark : isMark e.mark = true
  sign : ∀ s ∈ e.sign, isSign s = true
  digits : Digits e.digits

namespace Numeral

/-- A number as the grammar has it. -/
structure Proper (n : Numeral) : Prop where
  whole : Digits n.whole
  noLeadingZero : n.whole.head? = some zero → n.whole.length = 1
  fraction : ∀ digits ∈ n.fraction, Digits digits
  exponent : ∀ e ∈ n.exponent, e.Proper

/-- What follows cannot be joined to the number: no digit, no point behind whole digits alone, and
no mark unless the number has a power of ten. -/
structure EndsBefore (n : Numeral) (rest : Bytes) : Prop where
  digit : Stops isDigit rest
  point : n.fraction = none → n.exponent = none → Stops (· == Ascii.point) rest
  mark : n.exponent = none → Stops isMark rest

/-! ### The parts of a numeral -/

/-- The bytes of a fraction, if there is one. -/
def fractionText (fraction : Option Bytes) : Bytes :=
  match fraction with
  | none => []
  | some digits => point :: digits

/-- The bytes of a power of ten, if there is one. -/
def exponentText (exponent : Option Exponent) : Bytes :=
  match exponent with
  | none => []
  | some e => e.text

/-- All the digits at the front are read, and there must be one. -/
theorem scanDigits_eq_some_iff {bs ds rest : Bytes} :
    scanDigits bs = some (ds, rest) ↔ Digits ds ∧ bs = ds ++ rest ∧ Stops isDigit rest := by
  rw [scanDigits]
  constructor
  · intro h
    split at h
    · cases h
    next hne =>
      obtain ⟨rfl, rfl⟩ := Prod.mk.inj (Option.some.inj h)
      exact ⟨⟨hne, of_mem_takeWhile⟩, List.takeWhile_append_dropWhile.symm, stops_dropWhile _ _⟩
  · rintro ⟨⟨hne, hall⟩, rfl, hs⟩
    rw [takeWhile_run hall hs, dropWhile_run hall hs]
    cases ds with
    | nil => exact absurd rfl hne
    | cons d ds => rfl

/-- A whole part begins with a zero only if that is all of it. -/
theorem scanWhole_eq_some_iff {bs ds rest : Bytes} :
    scanWhole bs = some (ds, rest) ↔
      Digits ds ∧ (ds.head? = some zero → ds.length = 1) ∧ bs = ds ++ rest ∧
        Stops isDigit rest := by
  rw [scanWhole]
  constructor
  · intro h
    split at h
    · cases h
    next ds' rest' hd =>
      split at h
      · cases h
      next hz =>
        obtain ⟨rfl, rfl⟩ := Prod.mk.inj (Option.some.inj h)
        obtain ⟨hds, hbs, hs⟩ := scanDigits_eq_some_iff.mp hd
        exact ⟨hds, fun hz' => by_contra fun hl => hz ⟨hz', hl⟩, hbs, hs⟩
  · rintro ⟨hds, hz, hbs, hs⟩
    rw [scanDigits_eq_some_iff.mpr ⟨hds, hbs, hs⟩]
    exact if_neg fun h => h.2 (hz h.1)

/-- A fraction is read exactly when there is a point, and then it has digits. -/
theorem scanFraction_eq_some_iff {bs rest : Bytes} {f : Option Bytes} :
    scanFraction bs = some (f, rest) ↔
      (∀ ds ∈ f, Digits ds) ∧ bs = fractionText f ++ rest ∧
        (f = none → Stops (· == point) rest) ∧ (f ≠ none → Stops isDigit rest) := by
  cases bs with
  | nil =>
      rw [scanFraction, Option.some.injEq, Prod.mk.injEq]
      constructor
      · rintro ⟨rfl, rfl⟩
        exact ⟨by simp, rfl, fun _ => stops_nil _, fun _ => stops_nil _⟩
      · rintro ⟨-, h, -, -⟩
        cases f with
        | none => exact ⟨rfl, h⟩
        | some ds => cases h
  | cons b bs =>
      rw [scanFraction]
      by_cases hb : b == point
      · rw [if_pos hb]
        obtain rfl := eq_of_beq hb
        simp only [Option.map_eq_some_iff, Prod.mk.injEq, Prod.exists, scanDigits_eq_some_iff]
        constructor
        · rintro ⟨ds, r, ⟨hds, rfl, hs⟩, rfl, rfl⟩
          exact ⟨fun _ h => Option.mem_some.mp h ▸ hds, rfl, by simp, fun _ => hs⟩
        · rintro ⟨hds, hbs, hp, hs⟩
          cases f with
          | none =>
              obtain rfl : point :: bs = rest := hbs
              simp at hp
          | some ds =>
              exact ⟨ds, rest, ⟨hds ds rfl, List.tail_eq_of_cons_eq hbs, hs (by simp)⟩, rfl, rfl⟩
      · rw [if_neg hb]
        constructor
        · intro h
          obtain ⟨rfl, rfl⟩ := Prod.mk.inj (Option.some.inj h)
          exact ⟨by simp, rfl, fun _ => by simpa using hb, by simp⟩
        · rintro ⟨-, hbs, -, -⟩
          cases f with
          | none => exact congrArg _ (congrArg _ hbs)
          | some ds => exact absurd (by rw [List.head_eq_of_cons_eq hbs]; rfl) hb

theorem scanSign_cons (b : UInt8) (bs : Bytes) :
    scanSign (b :: bs) = if isSign b then (some b, bs) else (none, b :: bs) := rfl

/-- A sign is read if there is one. -/
theorem scanSign_eq_iff {bs rest : Bytes} {sign : Option UInt8} :
    scanSign bs = (sign, rest) ↔
      bs = sign.toList ++ rest ∧ (∀ s ∈ sign, isSign s = true) ∧
        (sign = none → Stops isSign rest) := by
  cases bs with
  | nil =>
      rw [scanSign, Prod.mk.injEq]
      constructor
      · rintro ⟨rfl, rfl⟩
        exact ⟨rfl, by simp, fun _ => stops_nil _⟩
      · rintro ⟨h, -, -⟩
        obtain ⟨hs, rfl⟩ := List.nil_eq_append_iff.mp h
        exact ⟨(Option.toList_eq_nil_iff.mp hs).symm, rfl⟩
  | cons b bs =>
      rw [scanSign_cons]
      by_cases hb : isSign b = true
      · rw [if_pos hb]
        constructor
        · intro h
          obtain ⟨rfl, rfl⟩ := Prod.mk.inj h
          exact ⟨rfl, fun s hs => Option.mem_some.mp hs ▸ hb, by simp⟩
        · rintro ⟨hbs, -, hs⟩
          cases sign with
          | none =>
              obtain rfl : b :: bs = rest := hbs
              simp [hb] at hs
          | some s =>
              obtain ⟨rfl, rfl⟩ := List.cons.inj hbs
              rfl
      · rw [if_neg hb]
        constructor
        · intro h
          obtain ⟨rfl, rfl⟩ := Prod.mk.inj h
          exact ⟨rfl, by simp, fun _ => by simpa using hb⟩
        · rintro ⟨hbs, hsign, -⟩
          cases sign with
          | none => exact congrArg _ hbs
          | some s =>
              obtain ⟨rfl, rfl⟩ := List.cons.inj hbs
              exact absurd (hsign b rfl) hb

theorem scanExponent_cons (b : UInt8) (bs : Bytes) :
    scanExponent (b :: bs) =
      if isMark b then
        (scanDigits (scanSign bs).2).map fun p => (some ⟨b, (scanSign bs).1, p.1⟩, p.2)
      else some (none, b :: bs) := rfl

/-- A digit is no sign. -/
theorem isSign_of_isDigit : ∀ b : UInt8, isDigit b = true → isSign b = false :=
  forall_byte (by decide)

/-- A power of ten is read exactly when there is a mark, and then it has digits. -/
theorem scanExponent_eq_some_iff {bs rest : Bytes} {e : Option Exponent} :
    scanExponent bs = some (e, rest) ↔
      (∀ e' ∈ e, e'.Proper) ∧ bs = exponentText e ++ rest ∧
        (e = none → Stops isMark rest) ∧ (e ≠ none → Stops isDigit rest) := by
  cases bs with
  | nil =>
      rw [scanExponent, Option.some.injEq, Prod.mk.injEq]
      constructor
      · rintro ⟨rfl, rfl⟩
        exact ⟨by simp, rfl, fun _ => stops_nil _, fun _ => stops_nil _⟩
      · rintro ⟨-, h, -, -⟩
        cases e with
        | none => exact ⟨rfl, h⟩
        | some e => cases h
  | cons b bs =>
      rw [scanExponent_cons]
      by_cases hb : isMark b = true
      · rw [if_pos hb]
        simp only [Option.map_eq_some_iff, Prod.mk.injEq, Prod.exists, scanDigits_eq_some_iff]
        constructor
        · rcases hsc : scanSign bs with ⟨sign, after⟩
          obtain ⟨rfl, hsign, -⟩ := scanSign_eq_iff.mp hsc
          rintro ⟨ds, r, ⟨hds, rfl, hs⟩, rfl, rfl⟩
          refine ⟨fun _ h => Option.mem_some.mp h ▸ ⟨hb, hsign, hds⟩, ?_, by simp, fun _ => hs⟩
          simp only [exponentText, Exponent.text, List.cons_append, List.append_assoc]
        · rintro ⟨hp, hbs, hm, hs⟩
          cases e with
          | none =>
              obtain rfl : b :: bs = rest := hbs
              simp [hb] at hm
          | some e =>
              obtain ⟨mark, sign, ds⟩ := e
              have hp := hp _ rfl
              simp only [exponentText, Exponent.text, List.cons_append, List.append_assoc] at hbs
              obtain ⟨rfl, rfl⟩ := List.cons.inj hbs
              -- without a sign the first digit follows, which is none
              have hsc : scanSign (sign.toList ++ (ds ++ rest)) = (sign, ds ++ rest) := by
                refine scanSign_eq_iff.mpr ⟨rfl, hp.sign, fun _ => ?_⟩
                obtain ⟨d, ds', rfl, hd, -⟩ := hp.digits.exists_cons
                exact (stops_cons _ _ _).mpr (isSign_of_isDigit d hd)
              rw [hsc]
              exact ⟨ds, rest, ⟨hp.digits, rfl, hs (by simp)⟩, rfl, rfl⟩
      · rw [if_neg hb]
        constructor
        · intro h
          obtain ⟨rfl, rfl⟩ := Prod.mk.inj (Option.some.inj h)
          exact ⟨by simp, rfl, fun _ => by simpa using hb, by simp⟩
        · rintro ⟨hp, hbs, -, -⟩
          cases e with
          | none => exact congrArg _ (congrArg _ hbs)
          | some e =>
              obtain ⟨rfl, -⟩ := List.cons.inj hbs
              exact absurd (hp e rfl).mark hb

/-- A minus sign is read if there is one. -/
theorem scanMinus_eq_iff {bs rest : Bytes} {negative : Bool} :
    scanMinus bs = (negative, rest) ↔
      bs = (if negative then [minus] else []) ++ rest ∧
        (negative = false → Stops (· == minus) rest) := by
  cases bs with
  | nil =>
      rw [scanMinus, Prod.mk.injEq]
      constructor
      · rintro ⟨rfl, rfl⟩
        exact ⟨rfl, fun _ => stops_nil _⟩
      · rintro ⟨h, -⟩
        cases negative with
        | false => exact ⟨rfl, h⟩
        | true => cases h
  | cons b bs =>
      rw [scanMinus]
      by_cases hb : b == minus
      · rw [if_pos hb]
        obtain rfl := eq_of_beq hb
        cases negative with
        | false =>
            simp only [Prod.mk.injEq, Bool.true_eq_false, false_and, Bool.false_eq_true, ↓reduceIte,
              List.nil_append, forall_const, false_iff]
            rintro ⟨rfl, hs⟩
            simp at hs
        | true => simp
      · rw [if_neg hb]
        cases negative with
        | false =>
            simp only [Prod.mk.injEq, true_and, Bool.false_eq_true, ↓reduceIte, List.nil_append,
              forall_const]
            constructor
            · rintro rfl
              exact ⟨rfl, by simpa using hb⟩
            · exact And.left
        | true =>
            simp only [Prod.mk.injEq, Bool.false_eq_true, false_and, ↓reduceIte, List.cons_append,
              List.nil_append, List.cons.injEq, false_iff]
            rintro ⟨⟨rfl, -⟩, -⟩
            exact hb rfl

/-! ### Whole numerals -/

theorem scan_eq (bs : Bytes) :
    scan bs = (scanWhole (scanMinus bs).2).bind fun w =>
      (scanFraction w.2).bind fun f =>
        (scanExponent f.2).bind fun e =>
          some (⟨(scanMinus bs).1, w.1, f.1, e.1⟩, e.2) := rfl

/-- A numeral is written part by part. -/
theorem text_eq (n : Numeral) :
    n.text = (if n.negative then [minus] else []) ++
      (n.whole ++ (fractionText n.fraction ++ exponentText n.exponent)) := by
  simp only [text, List.append_assoc]
  rfl

/-- What the mark of a power of ten stops, and what stands behind the power when there is none, is
stopped in front of it. -/
theorem stops_exponentText {test : UInt8 → Bool} {e : Option Exponent} {rest : Bytes}
    (hp : ∀ e' ∈ e, e'.Proper) (ht : ∀ b, isMark b = true → test b = false)
    (h : e = none → Stops test rest) : Stops test (exponentText e ++ rest) := by
  cases e with
  | none => exact h rfl
  | some e => exact (stops_cons _ _ _).mpr (ht _ (hp e rfl).mark)

/-- What stops before the point of a fraction stops before the fraction. -/
theorem stops_fractionText {test : UInt8 → Bool} {f : Option Bytes} {rest : Bytes}
    (ht : test point = false) (h : f = none → Stops test rest) :
    Stops test (fractionText f ++ rest) := by
  cases f with
  | none => exact h rfl
  | some ds => exact (stops_cons _ _ _).mpr ht

theorem isDigit_of_isMark : ∀ b : UInt8, isMark b = true → isDigit b = false :=
  forall_byte (by decide)

theorem isPoint_of_isMark : ∀ b : UInt8, isMark b = true → (b == point) = false :=
  forall_byte (by decide)

theorem isMinus_of_isDigit : ∀ b : UInt8, isDigit b = true → (b == minus) = false :=
  forall_byte (by decide)

/-- **A numeral is read exactly when a proper one stands at the front and ends there.** -/
theorem scan_eq_some_iff {bs rest : Bytes} {n : Numeral} :
    scan bs = some (n, rest) ↔ n.Proper ∧ bs = n.text ++ rest ∧ n.EndsBefore rest := by
  obtain ⟨negative, whole, fraction, exponent⟩ := n
  rw [scan_eq, text_eq]
  simp only [Option.bind_eq_some_iff, Option.some.injEq, Prod.mk.injEq, Numeral.mk.injEq,
    Prod.exists, List.append_assoc]
  constructor
  · rintro ⟨whole, r₁, hw, fraction, r₂, hf, exponent, rest, he, ⟨rfl, rfl, rfl, rfl⟩, rfl⟩
    rcases hm : scanMinus bs with ⟨negative, r₀⟩
    rw [hm] at hw
    obtain ⟨rfl, -⟩ := scanMinus_eq_iff.mp hm
    obtain ⟨hwd, hz, rfl, hws⟩ := scanWhole_eq_some_iff.mp hw
    obtain ⟨hfd, rfl, hfp, hfs⟩ := scanFraction_eq_some_iff.mp hf
    obtain ⟨hed, rfl, hem, hes⟩ := scanExponent_eq_some_iff.mp he
    refine ⟨⟨hwd, hz, hfd, hed⟩, rfl, ?_, ?_, hem⟩
    · cases exponent with
      | some e => exact hes (by simp)
      | none =>
          cases fraction with
          | some ds => exact hfs (by simp)
          | none => exact hws
    · rintro rfl rfl
      exact hfp rfl
  · rintro ⟨⟨hwd, hz, hfd, hed⟩, rfl, ⟨hd, hp, hm⟩⟩
    have hmin : scanMinus ((if negative then [minus] else []) ++
        (whole ++ (fractionText fraction ++ (exponentText exponent ++ rest)))) =
          (negative, whole ++ (fractionText fraction ++ (exponentText exponent ++ rest))) := by
      refine scanMinus_eq_iff.mpr ⟨rfl, fun _ => ?_⟩
      obtain ⟨d, ds, rfl, hd, -⟩ := hwd.exists_cons
      exact (stops_cons _ _ _).mpr (isMinus_of_isDigit d hd)
    rw [hmin]
    refine ⟨whole, _, scanWhole_eq_some_iff.mpr ⟨hwd, hz, rfl, ?_⟩, fraction, _,
      scanFraction_eq_some_iff.mpr ⟨hfd, rfl, fun hf => ?_, fun _ => ?_⟩, exponent, rest,
      scanExponent_eq_some_iff.mpr ⟨hed, rfl, hm, fun _ => hd⟩, ⟨rfl, rfl, rfl, rfl⟩, rfl⟩
    · exact stops_fractionText rfl fun _ => stops_exponentText hed isDigit_of_isMark fun _ => hd
    · exact stops_exponentText hed isPoint_of_isMark (hp hf)
    · exact stops_exponentText hed isDigit_of_isMark fun _ => hd

/-! ### Numerals in a slice -/

/-- A digit may belong to a numeral; so may a mark, a sign and the point, as the next lemmas say. -/
theorem isPart_of_isDigit : ∀ b : UInt8, isDigit b = true → isPart b = true :=
  forall_byte (by decide)

theorem isPart_of_isMark : ∀ b : UInt8, isMark b = true → isPart b = true :=
  forall_byte (by decide)

theorem isPart_of_isSign : ∀ b : UInt8, isSign b = true → isPart b = true :=
  forall_byte (by decide)

theorem isPart_of_isPoint : ∀ b : UInt8, (b == point) = true → isPart b = true :=
  forall_byte (by decide)

/-- Every byte of a numeral is one that may belong to it. -/
theorem Proper.isPart_of_mem {n : Numeral} (h : n.Proper) : ∀ b ∈ n.text, isPart b = true := by
  obtain ⟨negative, whole, fraction, exponent⟩ := n
  have hw := h.whole.2
  intro b hb
  rw [text_eq] at hb
  simp only [List.mem_append] at hb
  rcases hb with hb | hb | hb | hb
  · cases negative with
    | false => cases hb
    | true => exact List.mem_singleton.mp hb ▸ rfl
  · exact isPart_of_isDigit b (hw b hb)
  · cases fraction with
    | none => cases hb
    | some ds =>
        rcases List.mem_cons.mp hb with rfl | hb
        · rfl
        · exact isPart_of_isDigit b ((h.fraction ds rfl).2 b hb)
  · cases exponent with
    | none => cases hb
    | some e =>
        have he := h.exponent e rfl
        simp only [exponentText, Exponent.text, List.mem_cons, List.mem_append,
          Option.mem_toList] at hb
        rcases hb with rfl | hb | hb
        · exact isPart_of_isMark _ he.mark
        · exact isPart_of_isSign b (he.sign b hb)
        · exact isPart_of_isDigit b (he.digits.2 b hb)

/-- At the end of the text a numeral ends. -/
theorem endsBefore_nil (n : Numeral) : n.EndsBefore [] :=
  ⟨stops_nil _, fun _ _ => stops_nil _, fun _ => stops_nil _⟩

/-- A numeral ends when nothing that may belong to it follows, however much is left of what does. -/
theorem EndsBefore.append {n : Numeral} {front back : Bytes} (h : n.EndsBefore front)
    (hb : Stops isPart back) : n.EndsBefore (front ++ back) :=
  ⟨stops_append h.digit (hb.mono isPart_of_isDigit),
    fun hf he => stops_append (h.point hf he) (hb.mono isPart_of_isPoint),
    fun he => stops_append (h.mark he) (hb.mono isPart_of_isMark)⟩

/-- A numeral that ends still does when what follows is cut short. -/
theorem EndsBefore.takeWhile {n : Numeral} {rest : Bytes} (h : n.EndsBefore rest)
    (test : UInt8 → Bool) : n.EndsBefore (rest.takeWhile test) :=
  ⟨stops_takeWhile h.digit test, fun hf he => stops_takeWhile (h.point hf he) test,
    fun he => stops_takeWhile (h.mark he) test⟩

/-- The bytes in which a numeral is looked for are all that could belong to one. -/
theorem bytes_between_seek (s : Slice) (i : Nat) :
    (s.between i (s.seek (fun b => !isPart b) (s.size - i) i)).bytes =
      (s.rest i).takeWhile isPart := by
  have hl : (s.rest i).findIdx (fun b => !isPart b) = ((s.rest i).takeWhile isPart).length := by
    rw [List.takeWhile_eq_take_findIdx_not, List.length_take,
      Nat.min_eq_left List.findIdx_le_length]
  rw [Slice.seek_eq s _ _ i (Nat.le_refl _), hl]
  exact Slice.bytes_between List.takeWhile_append_dropWhile.symm

/-- **The numeral at an index is the one that stands there and ends there.** -/
theorem numeralAt_eq_some_iff {s : Slice} {i stop : Nat} {n : Numeral} :
    Reader.numeralAt s i = some (n, stop) ↔
      n.Proper ∧ (∃ rest, s.rest i = n.text ++ rest ∧ n.EndsBefore rest) ∧
        stop = i + n.text.length := by
  simp only [Reader.numeralAt, bytes_between_seek, Option.map_eq_some_iff, Prod.exists,
    Prod.mk.injEq, scan_eq_some_iff]
  constructor
  · rintro ⟨n, rest, ⟨hp, hr, he⟩, rfl, rfl⟩
    refine ⟨hp, ⟨rest ++ (s.rest i).dropWhile isPart, ?_, he.append (stops_dropWhile _ _)⟩, rfl⟩
    rw [← List.append_assoc, ← hr, List.takeWhile_append_dropWhile]
  · rintro ⟨hp, ⟨rest, hr, he⟩, rfl⟩
    refine ⟨n, rest.takeWhile isPart, ⟨hp, ?_, he.takeWhile _⟩, rfl, rfl⟩
    rw [hr, List.takeWhile_append_of_pos hp.isPart_of_mem]

/-! ### Whole numbers -/

/-- The integer that the digits before the point and the sign stand for. -/
def toInt (n : Numeral) : Int :=
  if n.negative then -(natOfDigits n.whole : Int) else natOfDigits n.whole

/-- The next number when a digit is appended. -/
def appendDigit (total : Nat) (b : UInt8) : Nat :=
  total * 10 + digitValue b

theorem digitValue_le : ∀ b : UInt8, isDigit b = true → digitValue b ≤ 9 :=
  forall_byte (by decide)

/-- A total never shrinks. -/
theorem le_foldl_appendDigit (bs : Bytes) (total : Nat) :
    total ≤ bs.foldl appendDigit total := by
  induction bs generalizing total with
  | nil => exact Nat.le_refl _
  | cons b bs ih =>
      refine Nat.le_trans ?_ (ih (appendDigit total b))
      simp only [appendDigit]
      omega

/-- The test before a step is exact: it refuses the steps that would not fit, and no others. -/
theorem overflow_iff {d total : UInt64} (hd : d.toNat ≤ 9) :
    (0xFFFFFFFFFFFFFFFF - d) / 10 < total ↔ 2 ^ 64 ≤ total.toNat * 10 + d.toNat := by
  have hle : d ≤ 0xFFFFFFFFFFFFFFFF := by
    rw [UInt64.le_iff_toNat_le]
    exact Nat.le_trans hd (by decide)
  rw [UInt64.lt_iff_toNat_lt, UInt64.toNat_div, UInt64.toNat_sub_of_le _ _ hle]
  simp only [UInt64.reduceToNat]
  omega

/-- **The sum in 64 bits is the true one, or it is given up**, at the first digit that takes it
beyond. -/
theorem accumulate_eq {bs : Bytes} (h : ∀ b ∈ bs, isDigit b = true) (total : UInt64) :
    accumulate bs total =
      if bs.foldl appendDigit total.toNat < 2 ^ 64 then
        some (UInt64.ofNat (bs.foldl appendDigit total.toNat))
      else none := by
  induction bs generalizing total with
  | nil => simp [accumulate, total.toNat_lt]
  | cons b bs ih =>
      have hv := digitValue_le b (h b List.mem_cons_self)
      have hd : (digitValue b).toUInt64.toNat = digitValue b :=
        UInt64.toNat_ofNat_of_lt' (by simp only [UInt64.size]; omega)
      rw [accumulate, List.foldl_cons]
      by_cases hc : (0xFFFFFFFFFFFFFFFF - (digitValue b).toUInt64) / 10 < total
      · -- more digits make no number smaller
        rw [if_pos hc]
        rw [overflow_iff (by omega), hd] at hc
        have := le_foldl_appendDigit bs (appendDigit total.toNat b)
        rw [if_neg (by simp only [appendDigit] at this ⊢; omega)]
      · rw [if_neg hc]
        rw [overflow_iff (by omega), hd] at hc
        have hn : (total * 10 + (digitValue b).toUInt64).toNat = appendDigit total.toNat b := by
          rw [UInt64.toNat_add, UInt64.toNat_mul, hd]
          simp only [UInt64.reduceToNat, appendDigit]
          omega
        rw [ih (fun c hc => h c (List.mem_cons_of_mem _ hc)), hn]

/-- The value of digits is found exactly when it fits in 64 bits. -/
theorem accumulate_zero {bs : Bytes} (h : ∀ b ∈ bs, isDigit b = true) :
    accumulate bs 0 =
      if natOfDigits bs < 2 ^ 64 then some (UInt64.ofNat (natOfDigits bs)) else none :=
  accumulate_eq h 0

/-- An integer of 64 bits with a sign. -/
def Fits (z : Int) : Prop :=
  -2 ^ 63 ≤ z ∧ z < 2 ^ 63

instance (z : Int) : Decidable (Fits z) :=
  inferInstanceAs (Decidable (-2 ^ 63 ≤ z ∧ z < 2 ^ 63))

/-- A magnitude of at most `2 ^ 63` is negated within 64 bits. -/
theorem neg_ofNat {v : Nat} (h : v ≤ 2 ^ 63) : -Int64.ofNat v = Int64.ofInt (-(v : Int)) := by
  rw [← Int64.toInt_inj, Int64.toInt_neg_ofNat_of_le h]
  exact (Int64.toInt_ofInt_of_le (by omega) (by omega)).symm

/-- **A whole number is read as its exact value when that fits, and is refused otherwise.** -/
theorem toInt64?_eq {n : Numeral} (h : Digits n.whole) :
    n.toInt64? = if Fits n.toInt then some (Int64.ofInt n.toInt) else none := by
  rw [toInt64?, accumulate_zero h.2, toInt]
  generalize natOfDigits n.whole = v
  by_cases hv : v < 2 ^ 64
  · have hn : (UInt64.ofNat v).toNat = v := UInt64.toNat_ofNat_of_lt' hv
    rw [if_pos hv]
    dsimp only
    cases n.negative with
    | true =>
        have hneg : v ≤ 2 ^ 63 → -(UInt64.ofNat v).toInt64 = Int64.ofInt (-(v : Int)) := neg_ofNat
        simp only [↓reduceIte, UInt64.lt_iff_toNat_lt, hn, UInt64.reduceToNat]
        by_cases hl : 9223372036854775808 < v
        · have hf : ¬ Fits (-(v : Int)) := fun hf => by have := hf.1; omega
          rw [if_pos hl, if_neg hf]
        have hf : Fits (-(v : Int)) := ⟨by omega, by omega⟩
        rw [if_neg hl, if_pos hf]
        -- the least integer, whose opposite does not fit
        by_cases hm : UInt64.ofNat v = 0x8000000000000000
        · have hv' : v = 9223372036854775808 := by rw [← hn, hm]; rfl
          rw [if_pos hm, hv']
          rfl
        · rw [if_neg hm, hneg (by omega)]
    | false =>
        simp only [Bool.false_eq_true, ↓reduceIte, UInt64.lt_iff_toNat_lt, hn, UInt64.reduceToNat]
        by_cases hl : 9223372036854775807 < v
        · have hf : ¬ Fits (v : Int) := fun hf => by have := hf.2; omega
          rw [if_pos hl, if_neg hf]
        · have hf : Fits (v : Int) := ⟨by omega, by omega⟩
          rw [if_neg hl, if_pos hf]
          rfl
  · rw [if_neg hv, if_neg]
    simp only [Fits]
    split <;> omega

/-! ### Any number -/

/-- Digits behind a total shift it by as many places. -/
theorem foldl_appendDigit (bs : Bytes) (total : Nat) :
    bs.foldl appendDigit total = total * 10 ^ bs.length + natOfDigits bs := by
  induction bs generalizing total with
  | nil => simp [natOfDigits]
  | cons b bs ih =>
      have hn : natOfDigits (b :: bs) = bs.foldl appendDigit (appendDigit 0 b) := rfl
      rw [hn, List.foldl_cons, ih, ih (appendDigit 0 b), List.length_cons, Nat.pow_succ]
      simp only [appendDigit]
      ring

/-- The value of digits in two parts. -/
theorem natOfDigits_append (front back : Bytes) :
    natOfDigits (front ++ back) = natOfDigits front * 10 ^ back.length + natOfDigits back := by
  rw [← foldl_appendDigit]
  exact List.foldl_append

/-- The number without its sign: what the digits before and behind the point stand for, times the
power of ten. -/
def abs (n : Numeral) : ℚ :=
  (natOfDigits n.whole + natOfDigits (n.fraction.getD []) / 10 ^ (n.fraction.getD []).length) *
    10 ^ (n.exponent.map Exponent.value).getD 0

/-- All digits as one number, times the power of ten of the last. -/
theorem abs_eq (n : Numeral) : n.abs = n.digits * 10 ^ n.scale := by
  rw [abs, digits, scale, natOfDigits_append, zpow_sub₀ (by norm_num), zpow_natCast]
  push_cast
  field_simp

theorem abs_nonneg (n : Numeral) : 0 ≤ n.abs := by
  rw [abs]
  positivity

/-- **A number is read as the floating point number nearest to it.** -/
theorem toBinary64_eq (n : Numeral) : n.toBinary64 = Binary64.nearest n.negative n.abs := by
  rw [toBinary64, Binary64.ofDecimal_eq, abs_eq]

/-! ### A zero behind the point -/

/-- The digits before the point, and a single zero behind it. -/
def pointed (n : Numeral) : Numeral :=
  { n with fraction := some [zero], exponent := none }

/-- A numeral is an integer when it has neither fraction nor power of ten. -/
theorem isInteger_iff {n : Numeral} :
    n.isInteger = true ↔ n.fraction = none ∧ n.exponent = none := by
  simp [isInteger]

/-- An integer with a point and a zero behind it is a numeral. -/
theorem Proper.pointed {n : Numeral} (h : n.Proper) : n.pointed.Proper where
  whole := h.whole
  noLeadingZero := h.noLeadingZero
  fraction _ hds := by
    rw [← Option.some.inj hds]
    exact ⟨List.cons_ne_nil _ _, List.forall_mem_singleton.mpr rfl⟩
  exponent _ he := by cases he

/-- A pointed integer is written as the integer, the point and the zero. -/
theorem text_pointed {n : Numeral} (h : n.isInteger = true) :
    n.pointed.text = n.text ++ [point, zero] := by
  obtain ⟨hf, he⟩ := isInteger_iff.mp h
  rw [text_eq, text_eq, pointed, hf, he]
  simp [fractionText, exponentText]

/-- The magnitude of an integer is the value of its digits. -/
theorem abs_of_isInteger {n : Numeral} (h : n.isInteger = true) : n.abs = natOfDigits n.whole := by
  obtain ⟨hf, he⟩ := isInteger_iff.mp h
  have hnil : natOfDigits [] = 0 := rfl
  simp [abs, hf, he, hnil]

/-- The zero adds nothing. -/
theorem abs_pointed (n : Numeral) : n.pointed.abs = natOfDigits n.whole := by
  have hzero : natOfDigits [zero] = 0 := rfl
  simp [abs, pointed, hzero]

end Numeral

end JsonTree
