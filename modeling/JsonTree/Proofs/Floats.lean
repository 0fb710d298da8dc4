import JsonTree.Proofs.Equality
import JsonTree.Proofs.Offence
import JsonTree.Proofs.Pattern

/-!
# Floating point numbers — the nearest one, or out of range

What a number is read as is the finite number nearest to it, a tie going to the even one, with the
sign that is written, also in front of zero (`Rounds`).  It is out of range from `2 ^ 1024 - 2 ^
970` on (`overflow`), in the middle between the largest finite number and what would be the next.

* `nearest_infinite_iff`, `nearest_zero_iff`: which numbers go to infinity, and which to zero.
* `rounds_iff`: below overflow, the number of nearest magnitude is the nearest among all finite
  numbers.
* `parse_number`: a number by itself is a document.
* `floats_are_read_nearest`: how a number is read, and that an integer in 64 bits is widened to the
  number that it is read as with a point and a zero behind it.
-/

namespace JsonTree

namespace Binary64

/-! ### Infinity and zero -/

/-- The least number that is out of range. -/
def overflow : ℚ :=
  2 ^ 1024 - 2 ^ 970

/-- Infinity takes the place of two to the 1024th. -/
theorem size_infinite : size infinite = 2 ^ 1024 := by
  have hparts : infinite = 2046 * 2 ^ 52 + 2 ^ 52 := by decide
  rw [size, hparts, units_add (by decide) (.inr (Nat.le_refl _)), div_eq_iff (by positivity),
    Nat.cast_mul, Nat.cast_pow, Nat.cast_pow, Nat.cast_ofNat, ← pow_add, ← pow_add]

/-- The largest finite number. -/
theorem size_largest : size (infinite - 1) = 2 ^ 1024 - 2 * 2 ^ 970 := by
  have hparts : infinite - 1 = 2045 * 2 ^ 52 + (2 ^ 53 - 1) := by decide
  have hkept : ((2 ^ 53 - 1 : Nat) : ℚ) = 2 ^ 53 - 1 := by norm_num
  rw [size, hparts, units_add (by decide) (.inr (by decide)), div_eq_iff (by positivity),
    Nat.cast_mul, hkept, Nat.cast_pow, Nat.cast_ofNat, sub_mul, sub_mul, ← pow_succ', ← pow_add,
    ← pow_add, ← pow_add, one_mul]

theorem size_nonneg (m : Nat) : 0 ≤ size m :=
  size_zero ▸ size_strictMono.monotone (Nat.zero_le m)

/-- The largest finite float lies below what overflows. -/
theorem largest_le_overflow : size (infinite - 1) ≤ overflow := by
  have hhalf : (0 : ℚ) ≤ 2 ^ 970 := by positivity
  rw [size_largest, overflow, sub_le_sub_iff_left]
  generalize (2 : ℚ) ^ 970 = half at *
  linarith

/-- What is not out of range is nearer to the largest finite number than to infinity. -/
theorem distance_largest_lt_iff {r : ℚ} :
    |r - size (infinite - 1)| < |r - size infinite| ↔ r < overflow := by
  have hhalf : (0 : ℚ) < 2 ^ 970 := by positivity
  rw [size_infinite, size_largest, overflow]
  generalize (2 : ℚ) ^ 1024 = top at *
  generalize (2 : ℚ) ^ 970 = half at *
  constructor
  · intro h
    by_contra hle
    rw [abs_of_nonneg (by linarith : 0 ≤ r - (top - 2 * half))] at h
    rcases lt_abs.mp h with h | h <;> linarith
  · intro h
    rw [abs_sub_comm r top, abs_of_nonneg (by linarith : 0 ≤ top - r)]
    exact abs_lt.mpr ⟨by linarith, by linarith⟩

/-- **Infinity is nearest from overflow on.** -/
theorem nearest_infinite_iff {r : ℚ} : Nearest r infinite ↔ overflow ≤ r := by
  constructor
  · intro h
    rw [← not_lt, ← distance_largest_lt_iff, not_lt]
    exact h.le_distance (infinite - 1) (Nat.sub_le _ _)
  · intro h
    have hfar := not_lt.mp (mt distance_largest_lt_iff.mp (not_lt.mpr h))
    refine ⟨Nat.le_refl _, fun j hj => ?_, fun _ _ _ _ => by decide⟩
    rcases Nat.eq_or_lt_of_le hj with rfl | hj
    · exact le_refl _
    -- the largest finite number lies between the magnitude and the number
    have hj : size j ≤ size (infinite - 1) :=
      size_strictMono.monotone (Nat.le_sub_one_of_lt hj)
    have hlargest : size (infinite - 1) ≤ r := largest_le_overflow.trans h
    refine hfar.trans ?_
    rw [abs_of_nonneg (by linarith), abs_of_nonneg (by linarith)]
    linarith

/-- Zero is nearest up to half of the smallest number. -/
theorem nearest_zero_iff {r : ℚ} (h₀ : 0 ≤ r) : Nearest r 0 ↔ r * 2 ^ 1075 ≤ 1 := by
  refine ⟨fun h => ?_, nearest_zero h₀⟩
  have hone : size 1 * 2 ^ 1075 = 2 := by
    have hu : units 1 = 1 := rfl
    rw [size, hu, pow_succ (2 : ℚ) 1074, ← mul_assoc, div_mul_cancel₀ _ (by positivity),
      Nat.cast_one, one_mul]
  have hnear := h.le_distance 1 (by decide)
  have hpos : (0 : ℚ) < 2 ^ 1075 := by positivity
  rw [size_zero, sub_zero, abs_of_nonneg h₀] at hnear
  generalize (2 : ℚ) ^ 1075 = p at *
  have hhalf : 2 * r ≤ size 1 := by
    rcases le_abs'.mp hnear with h | h
    · linarith
    · linarith [size_strictMono Nat.zero_lt_one, size_zero]
  have := mul_le_mul_of_nonneg_right hhalf hpos.le
  linarith

/-- The finite floats are those below infinity. -/
theorem isFinite_iff {x : Binary64} : x.isFinite = true ↔ x.magnitude < infinite := by
  rw [isFinite, decide_eq_true_iff]

/-- Rounding stays finite up to half a step beyond the largest float. -/
theorem isFinite_nearest_iff (negative : Bool) {r : ℚ} (h : 0 ≤ r) :
    (nearest negative r).isFinite = true ↔ r < overflow := by
  have hn := (nearest_spec negative h).2
  rw [← not_le, ← nearest_infinite_iff, isFinite_iff]
  constructor
  · intro hlt hinf
    exact hlt.ne (hn.unique hinf)
  · intro hinf
    exact Nat.lt_of_le_of_ne hn.le_infinite fun heq => hinf (heq ▸ hn)

/-! ### Nearest among finite numbers -/

/-- A number with a sign in front. -/
def signed (negative : Bool) (r : ℚ) : ℚ :=
  if negative then -r else r

/-- A common sign does not change the distance. -/
theorem distance_signed (negative : Bool) (r r' : ℚ) :
    |signed negative r - signed negative r'| = |r - r'| := by
  cases negative with
  | false => rfl
  | true =>
      rw [signed, signed, if_pos rfl, if_pos rfl, neg_sub_neg, abs_sub_comm]

theorem signed_injective (negative : Bool) : Function.Injective (signed negative) := by
  intro r r' h
  rw [← sub_eq_zero, ← abs_eq_zero, ← distance_signed negative, h, sub_self, abs_zero]

/-- The number that a finite floating point number stands for. -/
def toRat (x : Binary64) : ℚ :=
  signed x.negative (size x.magnitude)

/-- Distances to floats of one sign are distances between sizes. -/
theorem distance_toRat {negative : Bool} {x : Binary64} (h : x.negative = negative) (r : ℚ) :
    |signed negative r - x.toRat| = |r - size x.magnitude| := by
  rw [toRat, h, distance_signed]

/-- Numbers with different signs are as far apart as both are from zero. -/
theorem distance_toRat_of_ne {negative : Bool} {x : Binary64} (hne : x.negative ≠ negative) {r : ℚ}
    (h : 0 ≤ r) : |signed negative r - x.toRat| = r + size x.magnitude := by
  have hsum := add_nonneg h (size_nonneg x.magnitude)
  rw [toRat, Bool.eq_not.mpr hne]
  cases negative with
  | false =>
      rw [signed, signed, if_neg Bool.false_ne_true, Bool.not_false, if_pos rfl, sub_neg_eq_add,
        abs_of_nonneg hsum]
  | true =>
      rw [signed, signed, if_pos rfl, Bool.not_true, if_neg Bool.false_ne_true, ← neg_add', abs_neg,
        abs_of_nonneg hsum]

/-- Every magnitude below infinity is that of a finite number, of either sign. -/
theorem exists_finite (negative : Bool) {m : Nat} (h : m < infinite) :
    ∃ x : Binary64, x.isFinite = true ∧ x.negative = negative ∧ x.magnitude = m := by
  have hm := magnitude_ofMagnitude negative h.le
  exact ⟨ofMagnitude negative m, isFinite_iff.mpr (by rwa [hm]), negative_ofMagnitude negative h.le, hm⟩

/-- The finite floating point number with the sign asked for that is nearest to a number: no finite
one is nearer, and when one that stands for another number is as near, the last bit is zero. -/
structure Rounds (q : ℚ) (negative : Bool) (x : Binary64) : Prop where
  finite : x.isFinite = true
  sign : x.negative = negative
  le_distance : ∀ y : Binary64, y.isFinite = true → |q - x.toRat| ≤ |q - y.toRat|
  even_of_tie : ∀ y : Binary64, y.isFinite = true → y.toRat ≠ x.toRat →
    |q - y.toRat| = |q - x.toRat| → x.magnitude % 2 = 0

section

variable {r : ℚ} {negative : Bool} {x : Binary64}

/-- Below overflow, what is nearest among finite numbers has the nearest magnitude. -/
theorem Rounds.nearest (hlt : r < overflow) (h : Rounds (signed negative r) negative x) :
    Nearest r x.magnitude := by
  have hle : ∀ j < infinite, |r - size x.magnitude| ≤ |r - size j| := by
    intro j hj
    obtain ⟨y, hy, hs, rfl⟩ := exists_finite negative hj
    rw [← distance_toRat h.sign, ← distance_toRat hs]
    exact h.le_distance y hy
  -- infinity is farther than the largest finite number
  have hinf : |r - size x.magnitude| < |r - size infinite| :=
    (hle (infinite - 1) (by decide)).trans_lt (distance_largest_lt_iff.mpr hlt)
  refine ⟨(isFinite_iff.mp h.finite).le, fun j hj => ?_, fun j hj hne heq => ?_⟩
  · rcases Nat.eq_or_lt_of_le hj with rfl | hj
    · exact hinf.le
    · exact hle j hj
  · rcases Nat.eq_or_lt_of_le hj with rfl | hj
    · exact absurd heq.symm hinf.ne
    obtain ⟨y, hy, hs, rfl⟩ := exists_finite negative hj
    rw [← distance_toRat h.sign, ← distance_toRat hs] at heq
    refine h.even_of_tie y hy (fun hsame => hne ?_) heq
    rw [toRat, toRat, hs, h.sign] at hsame
    exact size_strictMono.injective (signed_injective _ hsame)

/-- Below overflow, the nearest magnitude is that of the nearest among finite numbers. -/
theorem Nearest.rounds (h₀ : 0 ≤ r) (hlt : r < overflow) (hs : x.negative = negative)
    (h : Nearest r x.magnitude) : Rounds (signed negative r) negative x := by
  have hzero := h.le_distance 0 (Nat.zero_le _)
  rw [size_zero, sub_zero, abs_of_nonneg h₀] at hzero
  refine ⟨isFinite_iff.mpr (Nat.lt_of_le_of_ne h.le_infinite fun heq => ?_), hs, fun y hy => ?_,
    fun y hy hne heq => ?_⟩
  · exact absurd (nearest_infinite_iff.mp (heq ▸ h)) (not_le.mpr hlt)
  · rw [distance_toRat hs]
    by_cases hsign : y.negative = negative
    · rw [distance_toRat hsign]
      exact h.le_distance _ (isFinite_iff.mp hy).le
    · rw [distance_toRat_of_ne hsign h₀]
      exact hzero.trans (le_add_of_nonneg_right (size_nonneg _))
  · rw [distance_toRat hs] at heq
    by_cases hsign : y.negative = negative
    · rw [distance_toRat hsign] at heq
      refine h.even_of_tie _ (isFinite_iff.mp hy).le (fun hm => hne ?_) heq
      rw [toRat, toRat, hsign, hs, hm]
    · -- one of the other sign is as near only when both are as near as zero
      rw [distance_toRat_of_ne hsign h₀] at heq
      have hnear : |r - size 0| = |r - size x.magnitude| := by
        rw [size_zero, sub_zero, abs_of_nonneg h₀]
        linarith [size_nonneg y.magnitude]
      by_cases hm : 0 = x.magnitude
      · rw [← hm]
      · exact h.even_of_tie 0 (Nat.zero_le _) hm hnear

/-- **Below overflow the nearest number is the nearest among all finite numbers**, of either sign,
and there is no other. -/
theorem rounds_iff (h : 0 ≤ r) (hlt : r < overflow) :
    Rounds (signed negative r) negative x ↔ x = nearest negative r := by
  obtain ⟨hs, hn⟩ := nearest_spec negative h
  constructor
  · intro hx
    exact eq_of_parts (hx.sign.trans hs.symm) ((hx.nearest hlt).unique hn)
  · rintro rfl
    exact hn.rounds h hlt hs

end

/-! ### Integers widened -/

/-- An integer becomes its nearest float. -/
theorem ofInt_eq (z : Int) : ofInt z = nearest (z < 0) z.natAbs := by
  have hn := nearest_roundRatio z.natAbs Nat.one_pos
  rw [Nat.cast_one, div_one] at hn
  exact hn.eq_nearest _

/-- The sign makes no difference to zero. -/
theorem sameNumber_nearest {negative negative' : Bool} {r : ℚ} (h : 0 ≤ r)
    (hs : negative = negative' ∨ r = 0) :
    (nearest negative r).sameNumber (nearest negative' r) = true := by
  have hn := (nearest_spec negative h).2
  have hn' := (nearest_spec negative' h).2
  have hnan : ∀ x : Binary64, Nearest r x.magnitude → x.isNaN = false := fun x hx =>
    decide_eq_false (Nat.not_lt.mpr hx.le_infinite)
  rw [sameNumber, hnan _ hn, hnan _ hn']
  rcases hs with rfl | rfl
  · simp
  · rw [hn.unique nearest_zero_zero, hn'.unique nearest_zero_zero]
    simp

end Binary64

open Ascii Bytes

namespace Numeral

/-- The number that a numeral stands for. -/
def amount (n : Numeral) : ℚ :=
  Binary64.signed n.negative n.abs

variable {n : Numeral}

/-- The digits of an integer are its absolute value. -/
theorem natAbs_toInt : n.toInt.natAbs = natOfDigits n.whole := by
  rw [toInt]
  split
  · exact (Int.natAbs_neg _).trans (Int.natAbs_natCast _)
  · exact Int.natAbs_natCast _

/-- The sign of the integer is the one that is written, except in front of zero. -/
theorem sign_toInt : decide (n.toInt < 0) = n.negative ∨ n.toInt.natAbs = 0 := by
  rw [natAbs_toInt, toInt]
  cases n.negative with
  | false => exact .inl (decide_eq_false (Int.not_lt.mpr (Int.natCast_nonneg _)))
  | true =>
      rcases Nat.eq_zero_or_pos (natOfDigits n.whole) with h | h
      · exact .inr h
      · exact .inl (decide_eq_true (Int.neg_neg_of_pos (Int.natCast_pos.mpr h)))

end Numeral

namespace NumberLiteral

variable {n : NumberLiteral}

/-- The digits before the point, and a single zero behind it. -/
def pointed (n : NumberLiteral) : NumberLiteral :=
  ⟨n.numeral.pointed, n.proper.pointed⟩

/-- A point behind an integer does not change its size. -/
theorem abs_pointed : n.pointed.numeral.abs = n.numeral.toInt.natAbs := by
  rw [Numeral.natAbs_toInt]
  exact n.numeral.abs_pointed

/-- No integer of 64 bits overflows. -/
theorem natAbs_lt_overflow {z : Int} (h : Numeral.Fits z) : (z.natAbs : ℚ) < Binary64.overflow := by
  have hle : z.natAbs ≤ 2 ^ 63 := by
    obtain ⟨hle, hlt⟩ := h
    omega
  have hpow : 2 ^ 63 + 2 ^ 970 < 2 ^ 1024 := by decide +kernel
  rw [Binary64.overflow, lt_sub_iff_add_lt]
  exact_mod_cast (Nat.add_le_add_right hle _).trans_lt hpow

/-- An integer of 64 bits with a point behind it is a float within the bounds. -/
theorem within_pointed (h : Numeral.Fits n.numeral.toInt) : n.pointed.Within := by
  rw [Within, if_neg (by simp [pointed, Numeral.pointed, Numeral.isInteger])]
  refine (Binary64.isFinite_nearest_iff _ (Numeral.abs_nonneg _)).mpr ?_
  rw [abs_pointed]
  exact natAbs_lt_overflow h

/-- **An integer is widened to the number that it is read as with a point and a zero behind it.** -/
theorem sameNumber_widened :
    (Binary64.ofInt n.numeral.toInt).sameNumber n.pointed.nearest = true := by
  rw [Binary64.ofInt_eq, nearest, abs_pointed]
  exact Binary64.sameNumber_nearest (Nat.cast_nonneg _)
    (Numeral.sign_toInt.imp id fun h => by rw [h, Nat.cast_zero])

end NumberLiteral

/-- **A number by itself is a document.** -/
theorem parse_number {n : NumberLiteral} (h : n.Within) {source : Slice}
    (hsource : source.bytes = n.text) (options : ReadOptions) :
    parse source options = ⟨n.value, none⟩ := by
  refine parse_eq_ok_iff.mpr ⟨⟨.none, .number n, .none⟩, [], ?_, ?_, stops_nil _, fun _ => rfl,
    ⟨h, Nat.zero_le _⟩, rfl⟩
  · simp [Derivation.text, Blanks.none, Node.text, hsource]
  · exact n.numeral.endsBefore_nil

/-- What is widened from an integer in 64 bits is what the integer is read as with a point and a
zero behind it. -/
theorem parse_widened {n : NumberLiteral} (hi : n.numeral.isInteger = true)
    (hfits : Numeral.Fits n.numeral.toInt) {source source' : Slice} (hsource : source.bytes = n.text)
    (hsource' : source'.bytes = n.text ++ [point, zero]) (options : ReadOptions) :
    ∃ v v' y x, parse source options = ⟨v, none⟩ ∧ parse source' options = ⟨v', none⟩ ∧
      v.number? = some y ∧ v'.floating? = some x ∧ y.sameNumber x = true := by
  have hwithin : n.Within := by rwa [NumberLiteral.Within, if_pos hi]
  have htext : source'.bytes = n.pointed.text := hsource'.trans (Numeral.text_pointed hi).symm
  refine ⟨_, _, _, n.pointed.nearest, parse_number hwithin hsource options,
    parse_number (NumberLiteral.within_pointed hfits) htext options, ?_, ?_,
    NumberLiteral.sameNumber_widened (n := n)⟩
  · rw [NumberLiteral.value, if_pos hi, Value.number?,
      Int64.toInt_ofInt_of_le hfits.1 hfits.2]
  · rw [NumberLiteral.value, if_neg (by simp [NumberLiteral.pointed, Numeral.pointed,
      Numeral.isInteger]), Value.floating?]

open Reader

/-- **Numbers are read as the nearest floating point number.**  At a cursor with a number behind
blanks, below overflow the one finite number is read that is nearest, with the sign that is written,
and the number is gone over; that is zero up to half of the smallest number.  From overflow on, only
the blanks are gone over, and it is told that the number is out of range, whatever words for numbers
are allowed.

So an integer that fits in 64 bits, when it is asked for as a floating point number, is the same
number as what is read with a point and a zero behind it. -/
theorem floats_are_read_nearest :
    (∀ (w : Blanks) (n : NumberLiteral) (s : Session Reader), NumberBehind w n s →
      (n.numeral.abs < Binary64.overflow → ∃ x,
        readFloat s = (x, skip s (w.text.length + n.text.length)) ∧
        (∀ y, Binary64.Rounds n.numeral.amount n.numeral.negative y ↔ y = x) ∧
        (x.magnitude = 0 ↔ n.numeral.abs * 2 ^ 1075 ≤ 1)) ∧
      (readFloat s = (Binary64.zero, failHere (skip s w.text.length) .numberOutOfRange) ↔
        Binary64.overflow ≤ n.numeral.abs)) ∧
    ∀ (n : NumberLiteral) (source source' : Slice) (options : ReadOptions),
      n.numeral.isInteger = true → Numeral.Fits n.numeral.toInt →
      source.bytes = n.text → source'.bytes = n.text ++ [point, zero] →
      ∃ v v' y x, parse source options = ⟨v, none⟩ ∧ parse source' options = ⟨v', none⟩ ∧
        v.number? = some y ∧ v'.floating? = some x ∧ y.sameNumber x = true := by
  refine ⟨fun w n s h => ?_, fun n source source' options hi hfits hsource hsource' =>
    parse_widened hi hfits hsource hsource' options⟩
  have hread := readFloat_of_number h
  have hpos := n.numeral.abs_nonneg
  have hfinite : n.nearest.isFinite = true ↔ n.numeral.abs < Binary64.overflow :=
    Binary64.isFinite_nearest_iff _ hpos
  by_cases hlt : n.numeral.abs < Binary64.overflow
  · rw [if_pos (hfinite.mpr hlt)] at hread
    refine ⟨fun _ => ⟨_, hread, fun y => Binary64.rounds_iff hpos hlt, ?_⟩, ?_⟩
    · have hn := (Binary64.nearest_spec n.numeral.negative hpos).2
      rw [← Binary64.nearest_zero_iff hpos]
      exact ⟨fun h0 => h0 ▸ hn, fun h0 => hn.unique h0⟩
    · refine ⟨fun hfail => absurd ?_ (Node.number n).length_text_pos.ne',
        fun hle => absurd hlt (not_lt.mpr hle)⟩
      rw [hread, Prod.mk.injEq] at hfail
      have hposition := congrArg (·.state.position) hfail.2
      change s.state.position + (_ + n.text.length) = s.state.position + _ at hposition
      rw [Node.text]
      omega
  · rw [if_neg (mt hfinite.mp hlt)] at hread
    exact ⟨fun h => absurd h hlt, fun _ => not_lt.mp hlt, fun _ => hread⟩

/-- The number in the middle between two floating point numbers, the first beyond those that are all
integers. -/
def betweenFloats : NumberLiteral where
  numeral := ⟨true, Bytes.ofString "9007199254740993", none, none⟩
  proper := ⟨⟨by decide, List.all_eq_true.mp (by decide)⟩, by decide, by simp, by simp⟩

/-- Out of range. -/
def tooFar : NumberLiteral where
  numeral := ⟨false, Bytes.ofString "1", none, some ⟨0x65, none, Bytes.ofString "400"⟩⟩
  proper := ⟨⟨by decide, List.all_eq_true.mp (by decide)⟩, by decide, by simp, fun _ h => by
    rw [← Option.some.inj h]
    exact ⟨by decide, by simp, by decide, List.all_eq_true.mp (by decide)⟩⟩

/-- A cursor before a number by itself, where words for numbers are allowed. -/
def before (n : NumberLiteral) : Session Reader :=
  start (.ofBytes 0 n.text) ⟨8, true, true⟩

theorem floats_are_read_nearest_betweenFloats :
    (∃ x, readFloat (before betweenFloats) = (x, skip (before betweenFloats) 17) ∧
      (∀ y, Binary64.Rounds (-9007199254740993) true y ↔ y = x)) ∧
    readFloat (before tooFar) = (Binary64.zero, failHere (before tooFar) .numberOutOfRange) ∧
    ∃ v v' y x, parse (.ofBytes 0 (Bytes.ofString "-9007199254740993")) {} = ⟨v, none⟩ ∧
      parse (.ofBytes 0 (Bytes.ofString "-9007199254740993.0")) {} = ⟨v', none⟩ ∧
      v.number? = some y ∧ v'.floating? = some x ∧ y.sameNumber x = true := by
  have hbehind : ∀ n, NumberBehind .none n (before n) := by
    intro n
    refine ⟨[], ?_, stands_text_iff.mpr n.numeral.endsBefore_nil⟩
    rw [List.append_nil]
    exact (rest_start _ _).trans (Slice.bytes_ofBytes 0 n.text)
  obtain ⟨hreads, hwidens⟩ := floats_are_read_nearest
  refine ⟨?_, ?_, hwidens betweenFloats _ _ _ rfl (by decide) rfl rfl⟩
  · have hdigits : natOfDigits betweenFloats.numeral.whole = 9007199254740993 := by decide
    have habs : betweenFloats.numeral.abs = 9007199254740993 := by
      rw [Numeral.abs, hdigits]
      simp [betweenFloats, natOfDigits]
    have hlt : betweenFloats.numeral.abs < Binary64.overflow := by
      rw [habs]
      exact_mod_cast NumberLiteral.natAbs_lt_overflow (by decide : Numeral.Fits 9007199254740993)
    obtain ⟨x, hx, hrounds, -⟩ := (hreads _ _ _ (hbehind betweenFloats)).1 hlt
    rw [Numeral.amount, habs] at hrounds
    exact ⟨x, hx, hrounds⟩
  · refine (hreads _ _ _ (hbehind tooFar)).2.mpr (Binary64.nearest_infinite_iff.mp ?_)
    rw [Numeral.abs_eq]
    exact Binary64.nearest_of_large (by decide) (by decide)

end JsonTree
