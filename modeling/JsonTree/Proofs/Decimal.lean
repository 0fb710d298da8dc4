import JsonTree.Write.Scalar
import JsonTree.Proofs.Numeral

/-!
# Decimals — what is written for a number reads back as it

Two things are held of the decimal that is chosen for a magnitude and of the text that is written
for a decimal.

* `nearest_shortest`: the magnitude is the one nearest to its decimal, whichever of the candidates
  was taken, so that rounding the decimal gives the magnitude back.
* `reads_decimal`: the text is a proper numeral that stands for the decimal.  Hence
  `exists_numeral_finite`: the text of a finite number is a numeral that is no integer and is read
  as the same number, bit by bit.
* `exists_numeral_integer`: the same for the text of an integer of 64 bits.
-/

namespace JsonTree

open Ascii

namespace Bytes

/-! ### Decimal digits -/

/-- The byte of a digit below ten. -/
def digit (n : Nat) : UInt8 :=
  n.digitChar.toNat.toUInt8

theorem isDigit_digit {n : Nat} (h : n < 10) : isDigit (digit n) = true := by
  have hall : ∀ n : Fin 10, isDigit (digit n) = true := by decide
  exact hall ⟨n, h⟩

/-- A digit is read as the number that it is written for. -/
theorem digitValue_digit {n : Nat} (h : n < 10) : digitValue (digit n) = n := by
  have hall : ∀ n : Fin 10, digitValue (digit n) = n := by decide
  exact hall ⟨n, h⟩

/-- A number below ten is its digit. -/
theorem decimal_of_lt {n : Nat} (h : n < 10) : decimal n = [digit n] := by
  rw [decimal, Nat.toDigits_of_lt_base h]
  rfl

/-- A number from ten on is the digits of its tenth, and one more. -/
theorem decimal_of_le {n : Nat} (h : 10 ≤ n) :
    decimal n = decimal (n / 10) ++ [digit (n % 10)] := by
  rw [decimal, Nat.toDigits_of_base_le (by decide) h, List.map_append]
  rfl

/-- A number is written in digits, and in one at least. -/
theorem digits_decimal (n : Nat) : Digits (decimal n) := by
  induction n using Nat.strong_induction_on with
  | h n ih =>
      rcases Nat.lt_or_ge n 10 with h | h
      · rw [decimal_of_lt h]
        refine ⟨List.cons_ne_nil _ _, ?_⟩
        intro b hb
        rw [List.mem_singleton.mp hb]
        exact isDigit_digit h
      · rw [decimal_of_le h]
        refine ⟨by simp, ?_⟩
        intro b hb
        rcases List.mem_append.mp hb with hb | hb
        · exact (ih (n / 10) (by omega)).2 b hb
        · rw [List.mem_singleton.mp hb]
          exact isDigit_digit (Nat.mod_lt n (by decide))

/-- The decimal digits of a number stand for it. -/
theorem natOfDigits_decimal (n : Nat) : natOfDigits (decimal n) = n := by
  induction n using Nat.strong_induction_on with
  | h n ih =>
      rcases Nat.lt_or_ge n 10 with h | h
      · rw [decimal_of_lt h]
        have hd : natOfDigits [digit n] = 0 * 10 + digitValue (digit n) := rfl
        rw [hd, digitValue_digit h]
        omega
      · have hd : natOfDigits [digit (n % 10)] = 0 * 10 + digitValue (digit (n % 10)) := rfl
        rw [decimal_of_le h, Numeral.natOfDigits_append, ih (n / 10) (by omega), hd,
          digitValue_digit (Nat.mod_lt n (by decide)), List.length_singleton]
        omega

/-- Only zero is written with a zero in front. -/
theorem eq_zero_of_head?_decimal {n : Nat} (h : (decimal n).head? = some zero) : n = 0 := by
  induction n using Nat.strong_induction_on with
  | h n ih =>
      rcases Nat.lt_or_ge n 10 with hn | hn
      · rw [decimal_of_lt hn] at h
        have hz : digit n = zero := Option.some.inj h
        rw [← digitValue_digit hn, hz]
        rfl
      · have hne := (digits_decimal (n / 10)).1
        rw [decimal_of_le hn, List.head?_append_of_ne_nil _ hne] at h
        have := ih (n / 10) (by omega) h
        omega

end Bytes

namespace Decimal

open Binary64 hiding zero

/-! ### The chosen decimal -/

/-- The number that a decimal is. -/
def value (d : Decimal) : ℚ :=
  d.digits * 10 ^ d.exponent

/-- A decimal is rounded to a nearest float. -/
theorem nearest_round (d : Decimal) : Nearest d.value d.round := by
  have hnonneg : 0 ≤ d.value := by
    rw [value]
    positivity
  rw [round, ofDecimal_eq]
  exact (nearest_spec false hnonneg).2

/-- Taking off trailing zeros changes nothing. -/
theorem value_strip (most : Nat) (d : Decimal) : (strip most d).value = d.value := by
  induction most generalizing d with
  | zero => rfl
  | succ most ih =>
      rw [strip]
      split
      · next h =>
          have hd : (d.digits : ℚ) = (d.digits / 10 : Nat) * 10 := by
            exact_mod_cast (by omega : d.digits = d.digits / 10 * 10)
          rw [ih, value, value, hd, zpow_add_one₀ (by norm_num)]
          ring
      · rfl

/-- A float's exact decimal has its size. -/
theorem value_exact (m : Nat) : (exact m).value = size m := by
  have hexponent : (-1074 : Int) = -((1074 : Nat) : Int) := rfl
  rw [value, exact, size, hexponent]
  generalize 1074 = places
  have hten : (10 : ℚ) ^ places = 5 ^ places * 2 ^ places := by
    rw [← mul_pow]
    norm_num
  rw [zpow_neg, zpow_natCast, hten, Nat.pow_eq, Nat.cast_mul, Nat.cast_pow, Nat.cast_ofNat]
  field_simp

/-- **A magnitude is nearest to the decimal chosen for it.** -/
theorem nearest_shortest {m : Nat} (h : m ≤ infinite) : Nearest (shortest m).value m := by
  rw [shortest]
  split
  · next h =>
      rw [h, value, Nat.cast_zero, zero_mul]
      exact nearest_zero_zero
  · dsimp only
    split
    · -- a candidate was taken because it rounds to the magnitude
      next d hd =>
        have hround : d.round = m := by simpa using List.find?_some hd
        rw [value_strip, ← hround]
        exact nearest_round d
    · rw [value_exact]
      exact nearest_size h

/-- Only zero itself has no significant digits, and then it has no power of ten. -/
theorem shortest_zero {m : Nat} (hm : m ≤ infinite) (h : (shortest m).digits = 0) :
    (shortest m).exponent = 0 := by
  have hnear := nearest_shortest hm
  rw [value, h, Nat.cast_zero, zero_mul] at hnear
  obtain rfl := hnear.unique nearest_zero_zero
  rfl

/-! ### Texts of decimals -/

/-- Zeros alone are zero. -/
theorem natOfDigits_replicate_zero (k : Nat) : natOfDigits (List.replicate k zero) = 0 := by
  induction k with
  | zero => rfl
  | succ k ih =>
      rw [List.replicate_succ', Numeral.natOfDigits_append, ih]
      rfl

namespace Style

/-- Leading zeros change no number. -/
theorem natOfDigits_pad (width : Nat) (bs : Bytes) :
    natOfDigits (pad width bs) = natOfDigits bs := by
  rw [pad, Numeral.natOfDigits_append, natOfDigits_replicate_zero, Nat.zero_mul, Nat.zero_add]

theorem length_pad (width : Nat) (bs : Bytes) :
    (pad width bs).length = max width bs.length := by
  rw [pad, List.length_append, List.length_replicate]
  omega

/-- What is padded with zeros is digits still. -/
theorem isDigit_of_mem_pad {bs : Bytes} (width : Nat) (h : ∀ b ∈ bs, isDigit b = true) :
    ∀ b ∈ pad width bs, isDigit b = true := by
  intro b hb
  rcases List.mem_append.mp hb with hb | hb
  · rw [List.eq_of_mem_replicate hb]
    rfl
  · exact h b hb

theorem digits_pad {bs : Bytes} (width : Nat) (h : Digits bs) : Digits (pad width bs) :=
  ⟨fun hnil => h.1 (List.append_eq_nil_iff.mp hnil).2, isDigit_of_mem_pad width h.2⟩

/-- The text is a proper numeral without a sign that stands for the decimal. -/
def Reads (text : Bytes) (d : Decimal) : Prop :=
  ∃ n : Numeral, n.Proper ∧ n.negative = false ∧ n.text = text ∧ n.abs = d.value

/-- A whole number written with the zeros that its power of ten takes. -/
theorem reads_whole {d : Decimal} (hz : d.digits = 0 → d.exponent = 0) (h : 0 ≤ d.exponent) :
    Reads (Bytes.decimal d.digits ++ List.replicate d.exponent.toNat zero) d := by
  have hds := Bytes.digits_decimal d.digits
  refine ⟨⟨false, Bytes.decimal d.digits ++ List.replicate d.exponent.toNat zero, none, none⟩,
    ⟨⟨?_, ?_⟩, ?_, by simp, by simp⟩, rfl, ?_, ?_⟩
  · exact fun hnil => hds.1 (List.append_eq_nil_iff.mp hnil).1
  · intro b hb
    rcases List.mem_append.mp hb with hb | hb
    · exact hds.2 b hb
    · rw [List.eq_of_mem_replicate hb]
      rfl
  · intro hhead
    rw [List.head?_append_of_ne_nil _ hds.1] at hhead
    have hd := Bytes.eq_zero_of_head?_decimal hhead
    rw [hz hd, hd]
    rfl
  · simp [Numeral.text_eq, Numeral.fractionText, Numeral.exponentText]
  · rw [Numeral.abs_eq, Numeral.digits, Numeral.scale, Option.getD_none, List.append_nil,
      Numeral.natOfDigits_append, natOfDigits_replicate_zero, Bytes.natOfDigits_decimal,
      List.length_replicate, value]
    have he : (10 : ℚ) ^ d.exponent = 10 ^ d.exponent.toNat := by
      rw [← zpow_natCast, Int.toNat_of_nonneg h]
    rw [he]
    simp

/-- A number written with its point among the digits or behind zeros in front of them. -/
theorem reads_fraction {d : Decimal} (hz : d.digits = 0 → d.exponent = 0) (h : d.exponent < 0) :
    Reads (positional (Bytes.decimal d.digits) d.exponent) d := by
  have hds := Bytes.digits_decimal d.digits
  have hval : natOfDigits (pad ((-d.exponent).toNat + 1) (Bytes.decimal d.digits)) = d.digits := by
    rw [natOfDigits_pad, Bytes.natOfDigits_decimal]
  have hlen := length_pad ((-d.exponent).toNat + 1) (Bytes.decimal d.digits)
  have hmem := isDigit_of_mem_pad ((-d.exponent).toNat + 1) hds.2
  -- a zero in front has been put there, so that one digit stands before the point
  have hhead : (pad ((-d.exponent).toNat + 1) (Bytes.decimal d.digits)).head? = some zero →
      (pad ((-d.exponent).toNat + 1) (Bytes.decimal d.digits)).length =
        (-d.exponent).toNat + 1 := by
    intro hhead
    by_contra hne
    have hk : (-d.exponent).toNat + 1 - (Bytes.decimal d.digits).length = 0 := by omega
    rw [pad, hk, List.replicate_zero, List.nil_append] at hhead
    have := hz (Bytes.eq_zero_of_head?_decimal hhead)
    omega
  rw [positional, if_neg (by omega)]
  dsimp only
  generalize hplaces : (-d.exponent).toNat = places at *
  generalize pad (places + 1) (Bytes.decimal d.digits) = padded at *
  refine ⟨⟨false, padded.take (padded.length - places),
    some (padded.drop (padded.length - places)), none⟩, ⟨⟨?_, ?_⟩, ?_, ?_, by simp⟩, rfl, ?_, ?_⟩
  · intro hnil
    have := congrArg List.length hnil
    rw [List.length_take, List.length_nil] at this
    omega
  · exact fun b hb => hmem b (List.mem_of_mem_take hb)
  · intro hzero
    rw [List.head?_take, if_neg (by omega)] at hzero
    rw [List.length_take, hhead hzero]
    omega
  · rintro ds ⟨⟩
    refine ⟨fun hnil => ?_, fun b hb => hmem b (List.mem_of_mem_drop hb)⟩
    have := congrArg List.length hnil
    rw [List.length_drop, List.length_nil] at this
    omega
  · simp [Numeral.text_eq, Numeral.fractionText, Numeral.exponentText]
  · rw [Numeral.abs_eq, Numeral.digits, Numeral.scale, Option.getD_some, List.take_append_drop,
      hval, List.length_drop, value]
    congr 2
    simp only [Option.map_none, Option.getD_none]
    omega

/-- A number written with one digit before the point and a power of ten. -/
theorem reads_scientific (style : Style) (d : Decimal) :
    Reads (style.scientific (Bytes.decimal d.digits)
      (d.exponent + (Bytes.decimal d.digits).length - 1)) d := by
  have hds := Bytes.digits_decimal d.digits
  have hval := Bytes.natOfDigits_decimal d.digits
  generalize Bytes.decimal d.digits = ds at *
  obtain ⟨b, rest, rfl, hb, hrest⟩ := hds.exists_cons
  generalize hfirst : d.exponent + (b :: rest).length - 1 = first
  have hpower : Digits (pad style.exponentDigits (Bytes.decimal first.natAbs)) :=
    digits_pad _ (Bytes.digits_decimal _)
  let power : Exponent := ⟨exponentMark, some (if first < 0 then minus else plus),
    pad style.exponentDigits (Bytes.decimal first.natAbs)⟩
  have hvalue : power.value = first := by
    rw [Exponent.value, natOfDigits_pad, Bytes.natOfDigits_decimal]
    rcases Int.lt_or_le first 0 with h | h
    · rw [if_pos (by simp [power, h])]
      omega
    · have hsign : power.sign ≠ some minus := by
        simp only [power, if_neg (Int.not_lt.mpr h)]
        decide
      rw [if_neg hsign]
      omega
  let fraction : Option Bytes := if rest = [] then none else some rest
  have hfraction : fraction.getD [] = rest := by
    by_cases h : rest = [] <;> simp [fraction, h]
  refine ⟨⟨false, [b], fraction, some power⟩, ⟨⟨List.cons_ne_nil _ _, ?_⟩, fun _ => rfl, ?_, ?_⟩,
    rfl, ?_, ?_⟩
  · intro c hc
    rw [List.mem_singleton.mp hc]
    exact hb
  · intro digits hd
    by_cases h : rest = []
    · simp [fraction, h] at hd
    · obtain rfl : rest = digits := by simpa [fraction, h] using hd
      exact ⟨h, hrest⟩
  · rintro e ⟨⟩
    refine ⟨rfl, ?_, hpower⟩
    rintro s ⟨⟩
    split <;> rfl
  · rw [Numeral.text_eq, scientific]
    cases rest <;> simp [fraction, power, Numeral.fractionText, Numeral.exponentText, Exponent.text]
  · rw [Numeral.abs_eq, Numeral.digits, Numeral.scale, hfraction, List.singleton_append, hval,
      Option.map_some, Option.getD_some, hvalue, value]
    congr 2
    simp only [List.length_cons] at hfirst
    omega

/-- However a decimal is laid out, it is read as itself. -/
theorem reads_decimal (style : Style) {d : Decimal} (hz : d.digits = 0 → d.exponent = 0) :
    Reads (style.decimal d) d := by
  rw [decimal]
  split
  · rcases Int.lt_or_le d.exponent 0 with h | h
    · exact reads_fraction hz h
    · rw [positional, if_pos h]
      exact reads_whole hz h
  · exact reads_scientific style d

/-! ### Texts of floating point numbers -/

/-- The text, with a fraction of zero if it would read as a whole number. -/
def asFloating (text : Bytes) : Bytes :=
  if isFloating text then text else text ++ [point, zero]

/-- The text of a finite number. -/
def finite (style : Style) (x : Binary64) : Bytes :=
  asFloating (style.shortest x)

/-- A numeral's text shows whether it is an integer: it has no point and no exponent. -/
theorem isFloating_text {n : Numeral} (h : n.Proper) : isFloating n.text = !n.isInteger := by
  obtain ⟨negative, whole, fraction, exponent⟩ := n
  have hdigit : ∀ b, isDigit b = true →
      (b == point || b == 'e'.toUInt8 || b == 'E'.toUInt8) = false :=
    forall_byte (by decide)
  have hwhole : isFloating whole = false := by
    rw [isFloating, List.any_eq_false]
    intro b hb
    rw [hdigit b (h.whole.2 b hb)]
    exact Bool.false_ne_true
  have hsign : isFloating (if negative then [minus] else []) = false := by
    cases negative <;> rfl
  have hfraction : isFloating (Numeral.fractionText fraction) = fraction.isSome := by
    cases fraction <;> rfl
  have hexponent : isFloating (Numeral.exponentText exponent) = exponent.isSome := by
    cases exponent with
    | none => rfl
    | some e =>
        have hm : (e.mark == 'e'.toUInt8 || e.mark == 'E'.toUInt8) = true := (h.exponent e rfl).mark
        refine List.any_eq_true.mpr ⟨e.mark, List.mem_cons_self, ?_⟩
        rw [Bool.or_assoc, hm, Bool.or_true]
  rw [isFloating] at hwhole hsign hfraction hexponent ⊢
  rw [Numeral.text_eq, List.any_append, List.any_append, List.any_append, hsign, hwhole, hfraction,
    hexponent, Numeral.isInteger]
  cases fraction <;> cases exponent <;> rfl

/-- A text that would read as a whole number reads as the same number with a fraction of zero. -/
theorem exists_asFloating {n : Numeral} (h : n.Proper) :
    ∃ n' : Numeral, n'.Proper ∧ n'.isInteger = false ∧ n'.negative = n.negative ∧
      n'.text = asFloating n.text ∧ n'.abs = n.abs := by
  rw [asFloating, isFloating_text h]
  cases hi : n.isInteger with
  | false => exact ⟨n, h, hi, rfl, rfl, rfl⟩
  | true =>
      have habs : n.pointed.abs = n.abs := by
        rw [Numeral.abs_pointed, Numeral.abs_of_isInteger hi]
      exact ⟨n.pointed, h.pointed, rfl, rfl, Numeral.text_pointed hi, habs⟩

/-- **The text of a finite number is a numeral that is no integer and is read as the number.** -/
theorem exists_numeral_finite (style : Style) {x : Binary64} (h : x.isFinite = true) :
    ∃ n : Numeral, n.Proper ∧ n.isInteger = false ∧ n.text = style.finite x ∧
      n.toBinary64 = x := by
  have hm : x.magnitude ≤ infinite := Nat.le_of_lt (of_decide_eq_true h)
  obtain ⟨⟨negative, whole, fraction, exponent⟩, hp, rfl, ht, hv⟩ :=
    style.reads_decimal (shortest_zero hm)
  obtain ⟨n, hn, hi, hneg, htext, habs⟩ :=
    exists_asFloating (n := ⟨x.negative, whole, fraction, exponent⟩)
      ⟨hp.whole, hp.noLeadingZero, hp.fraction, hp.exponent⟩
  refine ⟨n, hn, hi, ?_, ?_⟩
  · rw [htext, finite, shortest, ← ht]
    cases x.negative <;> rfl
  · rw [Numeral.toBinary64_eq, hneg, habs]
    have hnear := nearest_shortest hm
    rw [← hv] at hnear
    exact (hnear.eq_nearest x.negative).symm.trans (ofMagnitude_self x)

end Style

end Decimal

namespace Write

/-! ### Texts of integers -/

/-- **The text of an integer is a numeral that is read as the integer.** -/
theorem exists_numeral_integer (i : Int64) :
    ∃ n : Numeral, n.Proper ∧ n.isInteger = true ∧ n.text = integer i ∧ n.toInt64? = some i := by
  have hds := Bytes.digits_decimal i.toInt.natAbs
  have hval := Bytes.natOfDigits_decimal i.toInt.natAbs
  refine ⟨⟨i.toInt < 0, Bytes.decimal i.toInt.natAbs, none, none⟩, ⟨hds, ?_, by simp, by simp⟩, rfl,
    ?_, ?_⟩
  · intro hhead
    rw [Bytes.eq_zero_of_head?_decimal hhead]
    rfl
  · rw [Numeral.text_eq, integer]
    by_cases h : i.toInt < 0 <;> simp [h, Numeral.fractionText, Numeral.exponentText]
  · have hint : Numeral.toInt ⟨i.toInt < 0, Bytes.decimal i.toInt.natAbs, none, none⟩ = i.toInt := by
      rw [Numeral.toInt, hval]
      by_cases h : i.toInt < 0
      · rw [if_pos (by simpa using h)]
        omega
      · rw [if_neg (by simpa using h)]
        omega
    have hfits : Numeral.Fits i.toInt := ⟨i.le_toInt, i.toInt_lt⟩
    rw [Numeral.toInt64?_eq hds, hint, if_pos hfits, Int64.ofInt_toInt]

end Write

end JsonTree
