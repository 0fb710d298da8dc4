import JsonTree.Binary64.Rounding
import Mathlib.Algebra.Order.Field.Basic
import Mathlib.Algebra.Order.Field.Rat
import Mathlib.Algebra.Order.Field.Power
import Mathlib.Algebra.Order.Group.Abs
import Mathlib.Order.Monotone.Basic
import Mathlib.Tactic.FieldSimp
import Mathlib.Tactic.Linarith
import Mathlib.Tactic.Positivity
import Mathlib.Tactic.Ring
import Mathlib.Tactic.GCongr

/-!
# Rounding — the nearest binary number, and that it is found

A magnitude stands for a rational number, infinity for `2 ^ 1024` (`size`).  `Nearest r m` says that
no magnitude up to infinity lies nearer to `r` than `m` does, and that `m` is even when another lies
as near: rounding to nearest with ties to even, too large a number going to infinity.

* `Nearest.unique`: there is one such magnitude at most.
* `nearest_roundRatio`: the quotient that is rounded in units of `2 ^ -1074` is nearest to the
  fraction, for every fraction.
* `ofDecimal_eq`: so is what is made of decimal digits and a power of ten, also where the power
  is too large or too small to be formed.
-/

namespace JsonTree.Binary64

/-! ### The numbers magnitudes stand for -/

theorem units_eq (m : Nat) :
    units m = if m < 2 ^ 52 then m else (2 ^ 52 + m % 2 ^ 52) * 2 ^ (m / 2 ^ 52 - 1) := rfl

/-- The places dropped and the quotient kept add up to the magnitude. -/
theorem units_add {dropped kept : Nat} (h : kept ≤ 2 ^ 53) (h' : dropped = 0 ∨ 2 ^ 52 ≤ kept) :
    units (dropped * 2 ^ 52 + kept) = kept * 2 ^ dropped := by
  rw [units_eq]
  by_cases hlow : kept < 2 ^ 52
  · obtain rfl : dropped = 0 := by omega
    rw [if_pos (by omega)]
    simp
  rw [if_neg (by omega)]
  by_cases hhigh : kept = 2 ^ 53
  · have hdiv : (dropped * 2 ^ 52 + kept) / 2 ^ 52 - 1 = dropped + 1 := by omega
    have hmod : 2 ^ 52 + (dropped * 2 ^ 52 + kept) % 2 ^ 52 = 2 ^ 52 := by omega
    rw [hdiv, hmod, hhigh, Nat.pow_succ 2 dropped]
    omega
  · have hdiv : (dropped * 2 ^ 52 + kept) / 2 ^ 52 - 1 = dropped := by omega
    have hmod : 2 ^ 52 + (dropped * 2 ^ 52 + kept) % 2 ^ 52 = kept := by omega
    rw [hdiv, hmod]

/-- Every magnitude comes apart so, and the quotient leaves room for one more. -/
theorem exists_parts (m : Nat) :
    ∃ dropped kept, m = dropped * 2 ^ 52 + kept ∧ kept < 2 ^ 53 ∧ (dropped = 0 ∨ 2 ^ 52 ≤ kept) := by
  by_cases h : m < 2 ^ 53
  · exact ⟨0, m, by omega, h, .inl rfl⟩
  · exact ⟨m / 2 ^ 52 - 1, m - (m / 2 ^ 52 - 1) * 2 ^ 52, by omega, by omega, .inr (by omega)⟩

theorem units_lt_succ (m : Nat) : units m < units (m + 1) := by
  obtain ⟨dropped, kept, rfl, hlt, h⟩ := exists_parts m
  rw [Nat.add_assoc, units_add (by omega) h, units_add (by omega) (by omega)]
  exact Nat.mul_lt_mul_of_pos_right (Nat.lt_succ_self kept) (Nat.two_pow_pos dropped)

theorem units_strictMono : StrictMono units :=
  strictMono_nat_of_lt_succ units_lt_succ

theorem units_zero : units 0 = 0 := rfl

/-- A magnitude of a large exponent is a whole multiple of that exponent's unit. -/
theorem exists_units_eq_mul {dropped m : Nat} (h : (dropped + 1) * 2 ^ 52 ≤ m) :
    ∃ z, units m = z * 2 ^ dropped := by
  obtain ⟨dropped', kept, rfl, hlt, h'⟩ := exists_parts m
  rw [units_add (by omega) h']
  have hd : dropped' = dropped' - dropped + dropped := by omega
  exact ⟨kept * 2 ^ (dropped' - dropped), by rw [Nat.mul_assoc, ← Nat.pow_add, ← hd]⟩

/-- The number a magnitude stands for. -/
def size (m : Nat) : ℚ :=
  units m / 2 ^ 1074

theorem size_strictMono : StrictMono size := by
  intro m m' h
  exact div_lt_div_of_pos_right (Nat.cast_lt.mpr (units_strictMono h)) (by positivity)

/-! ### The nearest magnitude -/

/-- No magnitude up to infinity is nearer to the number, and none but the even one is as near. -/
structure Nearest (r : ℚ) (m : Nat) : Prop where
  le_infinite : m ≤ infinite
  le_distance : ∀ j ≤ infinite, |r - size m| ≤ |r - size j|
  even_of_tie : ∀ j ≤ infinite, j ≠ m → |r - size j| = |r - size m| → m % 2 = 0

/-- Of two magnitudes that a number lies between, in the middle, neither is nearest if a third is
between them. -/
theorem Nearest.not_lt {r : ℚ} {m m' : Nat} (h : Nearest r m) (h' : Nearest r m') : ¬ m < m' := by
  intro hlt
  have htie : |r - size m| = |r - size m'| :=
    le_antisymm (h.le_distance m' h'.le_infinite) (h'.le_distance m h.le_infinite)
  have heven := h.even_of_tie m' h'.le_infinite hlt.ne' htie.symm
  have heven' := h'.even_of_tie m h.le_infinite hlt.ne htie
  have hinf := h'.le_infinite
  have hnear := h.le_distance (m + 1) (by omega)
  have hs : size m < size (m + 1) := size_strictMono (Nat.lt_succ_self m)
  have hs' : size (m + 1) < size m' := size_strictMono (by omega)
  -- in the middle, and the magnitude behind the first is even nearer
  have hmid : r - size m = size m' - r := by
    rcases abs_eq_abs.mp htie with h | h <;> linarith
  have hpos : 0 < r - size m := by linarith
  rw [abs_of_pos hpos] at hnear
  rcases le_abs'.mp hnear with h | h <;> linarith

theorem Nearest.unique {r : ℚ} {m m' : Nat} (h : Nearest r m) (h' : Nearest r m') : m = m' :=
  le_antisymm (Nat.not_lt.mp (h'.not_lt h)) (Nat.not_lt.mp (h.not_lt h'))

theorem nearest_size {m : Nat} (h : m ≤ infinite) : Nearest (size m) m where
  le_infinite := h
  le_distance j _ := by
    rw [sub_self, abs_zero]
    exact abs_nonneg _
  even_of_tie j _ hne htie := by
    rw [sub_self, abs_zero, abs_eq_zero, sub_eq_zero] at htie
    exact absurd (size_strictMono.injective htie).symm hne

/-- From infinity on infinity is nearest. -/
theorem nearest_infinite {r : ℚ} (h : size infinite ≤ r) : Nearest r infinite where
  le_infinite := Nat.le_refl _
  le_distance j hj := by
    have := size_strictMono.monotone hj
    rw [abs_of_nonneg (by linarith), abs_of_nonneg (by linarith)]
    linarith
  even_of_tie _ _ _ _ := by decide

/-- Up to half of the smallest number zero is nearest. -/
theorem nearest_zero {r : ℚ} (h₀ : 0 ≤ r) (h : r * 2 ^ 1075 ≤ 1) : Nearest r 0 where
  le_infinite := Nat.zero_le _
  le_distance j hj := by
    have hzero : size 0 = 0 := by simp [size, units_zero]
    rw [hzero, sub_zero, abs_of_nonneg h₀]
    rcases Nat.eq_zero_or_pos j with rfl | hj
    · rw [hzero, sub_zero, abs_of_nonneg h₀]
    have hone : size 1 ≤ size j := size_strictMono.monotone hj
    have hsize : size 1 = 1 / 2 ^ 1075 + 1 / 2 ^ 1075 := by
      have hu : units 1 = 1 := rfl
      rw [size, hu, ← add_div, one_add_one_eq_two, pow_succ (2 : ℚ) 1074, Nat.cast_one,
        div_mul_eq_div_div_swap, div_self two_ne_zero]
    have hr : r ≤ 1 / 2 ^ 1075 := by
      rw [le_div_iff₀ (by positivity)]
      exact h
    rw [hsize] at hone
    generalize (1 / 2 ^ 1075 : ℚ) = half at *
    rw [abs_sub_comm, abs_of_nonneg (by linarith)]
    linarith
  even_of_tie _ _ _ _ := rfl

theorem nearest_zero_zero : Nearest 0 0 :=
  nearest_zero (le_refl _) (by rw [zero_mul]; exact zero_le_one)

/-! ### Rounding a quotient -/

/-- The rounded quotient is off by half a unit at most, and even when it is off by that much. -/
theorem roundDiv_spec (num : Nat) {den : Nat} (h : 0 < den) :
    |(num / den : ℚ) - roundDiv num den| ≤ 1 / 2 ∧
      (|(num / den : ℚ) - roundDiv num den| = 1 / 2 → roundDiv num den % 2 = 0) := by
  have hd : (0 : ℚ) < den := Nat.cast_pos.mpr h
  have hx : (num / den : ℚ) = (num / den : Nat) + (num % den : Nat) / den := by
    rw [eq_comm, add_div' _ _ _ hd.ne', ← Nat.cast_mul, ← Nat.cast_add, Nat.div_add_mod']
  have hr : num % den < den := Nat.mod_lt num h
  rw [hx, roundDiv]
  -- the remainder against half of the denominator: less, more, or a tie
  generalize num / den = q at *
  generalize num % den = r at *
  have hr₀ : (0 : ℚ) ≤ r / den := by positivity
  have hr₁ : (r / den : ℚ) < 1 := by rw [div_lt_one hd]; exact_mod_cast hr
  split
  · next hlt =>
      have hhalf : (r / den : ℚ) < 1 / 2 := by
        rw [div_lt_div_iff₀ hd two_pos]
        exact_mod_cast (by omega : r * 2 < 1 * den)
      rw [add_sub_cancel_left, abs_of_nonneg hr₀]
      exact ⟨hhalf.le, fun he => absurd he hhalf.ne⟩
  split
  · next hgt =>
      have hhalf : 1 / 2 < (r / den : ℚ) := by
        rw [div_lt_div_iff₀ two_pos hd]
        exact_mod_cast (by omega : 1 * den < r * 2)
      have hsub : (q : ℚ) + r / den - (q + 1 : Nat) = -(1 - r / den) := by push_cast; ring
      rw [hsub, abs_neg, abs_of_pos (by linarith)]
      exact ⟨by linarith, fun he => absurd he (by linarith)⟩
  · next hlt hgt =>
      have hhalf : (r / den : ℚ) = 1 / 2 := by
        rw [div_eq_div_iff hd.ne' two_ne_zero]
        exact_mod_cast (by omega : r * 2 = 1 * den)
      rw [hhalf]
      rcases Nat.mod_two_eq_zero_or_one q with he | ho
      · rw [he, Nat.add_zero, add_sub_cancel_left]
        exact ⟨by norm_num, fun _ => he⟩
      · have hsub : (q : ℚ) + 1 / 2 - (q + 1 : Nat) = -(1 / 2) := by push_cast; ring
        rw [ho, hsub, abs_neg]
        exact ⟨by norm_num, fun _ => by omega⟩

/-- No whole number is nearer to the quotient than the rounded one, and none is as near unless that
is even. -/
theorem roundDiv_nearest (num : Nat) {den : Nat} (h : 0 < den) (z : Nat) :
    |(num / den : ℚ) - roundDiv num den| ≤ |(num / den : ℚ) - z| ∧
      (z ≠ roundDiv num den → |(num / den : ℚ) - z| = |(num / den : ℚ) - roundDiv num den| →
        roundDiv num den % 2 = 0) := by
  obtain ⟨hle, heven⟩ := roundDiv_spec num h
  by_cases hz : z = roundDiv num den
  · exact ⟨by rw [hz], fun hne => absurd hz hne⟩
  have hone : (1 : ℚ) ≤ |(z : ℚ) - roundDiv num den| := by
    have : (1 : ℤ) ≤ |(z : ℤ) - roundDiv num den| :=
      Int.one_le_abs (sub_ne_zero.mpr (by exact_mod_cast hz))
    exact_mod_cast this
  have hsum : |(z : ℚ) - roundDiv num den| ≤
      |(num / den : ℚ) - z| + |(num / den : ℚ) - roundDiv num den| := by
    rw [abs_sub_comm (num / den : ℚ) z]
    exact abs_sub_le _ _ _
  exact ⟨by linarith, fun _ htie => heven (by linarith)⟩

/-- The rounded quotient lies between two whole numbers that the quotient lies between. -/
theorem roundDiv_mem (num den : Nat) : num / den ≤ roundDiv num den ∧
    roundDiv num den ≤ num / den + 1 := by
  rw [roundDiv]
  split
  · omega
  split <;> omega

/-! ### Rounding a fraction -/

/-- After dropping as many places as there are beyond 53, at most 53 are left, and exactly 53 if
any were dropped. -/
theorem quotient_bounds (scaled den : Nat) :
    scaled / (den * 2 ^ ((scaled / den).log2 - 52)) < 2 ^ 53 ∧
      ((scaled / den).log2 - 52 = 0 ∨
        2 ^ 52 ≤ scaled / (den * 2 ^ ((scaled / den).log2 - 52))) := by
  generalize hd : (scaled / den).log2 - 52 = dropped
  rw [← Nat.div_div_eq_div_mul]
  constructor
  · rw [Nat.div_lt_iff_lt_mul (Nat.two_pow_pos _), ← Nat.pow_add]
    exact Nat.lt_of_lt_of_le Nat.lt_log2_self (Nat.pow_le_pow_right two_pos (by omega))
  · rcases Nat.eq_zero_or_pos dropped with h0 | hpos
    · exact .inl h0
    refine .inr ((Nat.le_div_iff_mul_le (Nat.two_pow_pos _)).mpr ?_)
    have hne : scaled / den ≠ 0 := by
      intro h0
      rw [h0, Nat.log2_zero] at hd
      omega
    rw [← Nat.pow_add, ← Nat.le_log2 hne]
    omega

/-- A magnitude is a whole multiple of an exponent's unit or lies below the exponent's range. -/
theorem units_cases (dropped j : Nat) :
    (∃ z, units j = z * 2 ^ dropped) ∨ 0 < dropped ∧ units j < 2 ^ 52 * 2 ^ dropped := by
  rcases Nat.eq_zero_or_pos dropped with rfl | hpos
  · exact .inl ⟨units j, by rw [Nat.pow_zero, Nat.mul_one]⟩
  rcases Nat.lt_or_ge j (dropped * 2 ^ 52 + 2 ^ 52) with hj | hj
  · refine .inr ⟨hpos, ?_⟩
    rw [← units_add (by decide) (.inr (Nat.le_refl _))]
    exact units_strictMono hj
  · exact .inl (exists_units_eq_mul (by omega))

/-- Rounding a quotient of units to 53 binary places finds a magnitude that no other is nearer
than, and that is even if one is as near. -/
theorem roundUnits_nearest {scaled den dropped : Nat} (h : 0 < den)
    (hq : scaled / (den * 2 ^ dropped) < 2 ^ 53 ∧
      (dropped = 0 ∨ 2 ^ 52 ≤ scaled / (den * 2 ^ dropped))) (j : Nat) :
    let m := dropped * 2 ^ 52 + roundDiv scaled (den * 2 ^ dropped)
    |(scaled / den : ℚ) - units m| ≤ |(scaled / den : ℚ) - units j| ∧
      (j ≠ m → |(scaled / den : ℚ) - units j| = |(scaled / den : ℚ) - units m| → m % 2 = 0) := by
  have hden : 0 < den * 2 ^ dropped := Nat.mul_pos h (Nat.two_pow_pos _)
  have hp : (0 : ℚ) < 2 ^ dropped := by positivity
  have hmem := roundDiv_mem scaled (den * 2 ^ dropped)
  generalize hk : roundDiv scaled (den * 2 ^ dropped) = kept at hmem
  dsimp only
  have hunits : units (dropped * 2 ^ 52 + kept) = kept * 2 ^ dropped :=
    units_add (by omega) (by omega)
  -- in the unit of the exponent, distances are distances of the quotient from whole numbers
  have hscale : ∀ z : Nat, |(scaled / den : ℚ) - (z * 2 ^ dropped : Nat)| =
      2 ^ dropped * |(scaled / (den * 2 ^ dropped : Nat) : ℚ) - z| := by
    intro z
    have hsub : (scaled / den : ℚ) - (z * 2 ^ dropped : Nat) =
        2 ^ dropped * ((scaled / (den * 2 ^ dropped : Nat) : ℚ) - z) := by
      push_cast
      field_simp
    rw [hsub, abs_mul, abs_of_pos hp]
  have hgrid : ∀ z : Nat, |(scaled / den : ℚ) - units (dropped * 2 ^ 52 + kept)| ≤
      |(scaled / den : ℚ) - (z * 2 ^ dropped : Nat)| := by
    intro z
    rw [hunits, hscale, hscale, ← hk]
    exact mul_le_mul_of_nonneg_left (roundDiv_nearest scaled hden z).1 hp.le
  rcases units_cases dropped j with ⟨z, hz⟩ | ⟨hpos, hlt⟩
  · rw [hz]
    refine ⟨hgrid z, fun hne htie => ?_⟩
    have hzk : z ≠ kept := by
      rintro rfl
      exact hne (units_strictMono.injective (hz.trans hunits.symm))
    rw [hunits, hscale, hscale, mul_right_inj' hp.ne', ← hk] at htie
    have := (roundDiv_nearest scaled hden z).2 (hk ▸ hzk) htie
    omega
  · -- the least multiple in the exponent's range lies between the magnitude and the quotient
    have hleast : ((2 ^ 52 * 2 ^ dropped : Nat) : ℚ) ≤ scaled / den := by
      rw [le_div_iff₀ (Nat.cast_pos.mpr h)]
      have := (Nat.le_div_iff_mul_le hden).mp (hq.2.resolve_left (by omega))
      exact_mod_cast (by rwa [Nat.mul_assoc, Nat.mul_comm _ den])
    have hlt' : (units j : ℚ) < (2 ^ 52 * 2 ^ dropped : Nat) := Nat.cast_lt.mpr hlt
    have hnear := hgrid (2 ^ 52)
    rw [abs_of_nonneg (sub_nonneg.mpr hleast)] at hnear
    generalize ((2 ^ 52 * 2 ^ dropped : Nat) : ℚ) = least at hleast hlt' hnear
    rw [abs_of_pos (by linarith : (0 : ℚ) < scaled / den - units j)]
    exact ⟨by linarith, fun _ htie => absurd htie (by linarith)⟩

/-- A magnitude that is nearest in units, among all of them, is nearest up to infinity, or infinity
is when the magnitude lies beyond. -/
theorem nearest_of_units {num scaled den m : Nat} (hs : (scaled : ℚ) = num * 2 ^ 1074)
    (hall : ∀ j, |(scaled / den : ℚ) - units m| ≤ |(scaled / den : ℚ) - units j| ∧
      (j ≠ m → |(scaled / den : ℚ) - units j| = |(scaled / den : ℚ) - units m| → m % 2 = 0)) :
    Nearest (num / den) (min infinite m) := by
  have hp : (0 : ℚ) < 2 ^ 1074 := by positivity
  have hscale : ∀ j, |(scaled / den : ℚ) - units j| =
      2 ^ 1074 * |(num / den : ℚ) - size j| := by
    intro j
    have hsub : (scaled / den : ℚ) - units j = 2 ^ 1074 * ((num / den : ℚ) - size j) := by
      rw [hs, size, mul_sub, mul_div_cancel₀ _ hp.ne', mul_comm (num : ℚ), mul_div_assoc]
    rw [hsub, abs_mul, abs_of_pos hp]
  simp only [hscale, mul_le_mul_iff_right₀ hp, mul_right_inj' hp.ne'] at hall
  rcases Nat.le_total m infinite with hm | hm
  · rw [Nat.min_eq_right hm]
    exact ⟨hm, fun j _ => (hall j).1, fun j _ => (hall j).2⟩
  · rw [Nat.min_eq_left hm]
    -- the number is nearer to a magnitude beyond infinity, so it is beyond infinity itself
    rcases Nat.eq_or_lt_of_le hm with rfl | hlt
    · exact ⟨Nat.le_refl _, fun j _ => (hall j).1, fun j _ => (hall j).2⟩
    refine nearest_infinite ?_
    by_contra hr
    have hs : size infinite < size m := size_strictMono hlt
    have hnear := (hall infinite).1
    rw [abs_of_neg (by linarith), abs_of_neg (by linarith)] at hnear
    linarith

theorem roundRatio_eq (num den : Nat) :
    roundRatio num den = min infinite (((num * 2 ^ 1074 / den).log2 - 52) * 2 ^ 52 +
      roundDiv (num * 2 ^ 1074) (den * 2 ^ ((num * 2 ^ 1074 / den).log2 - 52))) := by
  simp only [roundRatio, Nat.pow_eq]

/-- **The rounded fraction is the nearest.** -/
theorem nearest_roundRatio (num : Nat) {den : Nat} (h : 0 < den) :
    Nearest (num / den) (roundRatio num den) := by
  rw [roundRatio_eq]
  -- nothing below computes the power
  generalize hp : 1074 = places
  exact nearest_of_units (by rw [Nat.cast_mul, Nat.cast_pow, Nat.cast_ofNat, hp])
    (roundUnits_nearest h (quotient_bounds _ den))

/-- A number that is not negative has a nearest magnitude. -/
theorem exists_nearest {r : ℚ} (h : 0 ≤ r) : ∃ m, Nearest r m := by
  refine ⟨roundRatio r.num.toNat r.den, ?_⟩
  have hnum : ((r.num.toNat : Nat) : ℚ) = r.num := by
    exact_mod_cast Int.toNat_of_nonneg (Rat.num_nonneg.mpr h)
  have := nearest_roundRatio r.num.toNat r.den_pos
  rwa [hnum, Rat.num_div_den] at this

/-! ### Decimals -/

theorem magnitude_ofMagnitude (negative : Bool) {m : Nat} (h : m ≤ infinite) :
    (ofMagnitude negative m).magnitude = m := by
  have hm : m < 0x8000000000000000 := Nat.lt_of_le_of_lt h (by decide)
  cases negative <;>
    simp only [ofMagnitude, magnitude, Bool.false_eq_true, ↓reduceIte, Nat.toUInt64_eq,
      UInt64.toNat_ofNat'] <;>
    omega

theorem negative_ofMagnitude (negative : Bool) {m : Nat} (h : m ≤ infinite) :
    (ofMagnitude negative m).negative = negative := by
  have hm : m < 0x8000000000000000 := Nat.lt_of_le_of_lt h (by decide)
  cases negative <;>
    simp only [ofMagnitude, Binary64.negative, Bool.false_eq_true, ↓reduceIte, Nat.toUInt64_eq,
      UInt64.toNat_ofNat', decide_eq_true_eq, decide_eq_false_iff_not] <;>
    omega

/-- A number is put together again from its sign and its magnitude. -/
theorem ofMagnitude_self (x : Binary64) : ofMagnitude x.negative x.magnitude = x := by
  obtain ⟨bits⟩ := x
  have hlt : bits.toNat < 2 ^ 64 := bits.toNat_lt
  simp only [ofMagnitude, Binary64.negative, magnitude, decide_eq_true_eq]
  congr 1
  rw [← UInt64.toNat_inj, Nat.toUInt64_eq, UInt64.toNat_ofNat']
  split <;> omega

/-- The number with the given sign that is nearest to a number that is not negative. -/
noncomputable def nearest (negative : Bool) (r : ℚ) : Binary64 :=
  ofMagnitude negative (Classical.epsilon (Nearest r))

/-- The nearest number has the sign asked for and the nearest magnitude. -/
theorem nearest_spec (negative : Bool) {r : ℚ} (h : 0 ≤ r) :
    (nearest negative r).negative = negative ∧ Nearest r (nearest negative r).magnitude := by
  have hn : Nearest r (Classical.epsilon (Nearest r)) := Classical.epsilon_spec (exists_nearest h)
  rw [nearest, negative_ofMagnitude _ hn.le_infinite, magnitude_ofMagnitude _ hn.le_infinite]
  exact ⟨rfl, hn⟩

theorem Nearest.eq_nearest {r : ℚ} {m : Nat} (h : Nearest r m) (negative : Bool) :
    ofMagnitude negative m = nearest negative r := by
  rw [nearest, (Classical.epsilon_spec ⟨m, h⟩ : Nearest r _).unique h]

theorem size_infinite_le : size infinite ≤ 10 ^ 311 := by
  have h : units infinite ≤ 10 ^ 311 * 2 ^ 1074 := by decide +kernel
  rw [size, div_le_iff₀ (by positivity)]
  exact_mod_cast h

/-- A decimal whose last digit stands for more than `10 ^ 310` is beyond infinity. -/
theorem nearest_of_large {digits : Nat} {exponent : Int} (hd : digits ≠ 0) (h : 310 < exponent) :
    Nearest (digits * 10 ^ exponent) infinite := by
  refine nearest_infinite (size_infinite_le.trans ?_)
  have hone : (1 : ℚ) ≤ digits := by exact_mod_cast Nat.pos_of_ne_zero hd
  calc (10 : ℚ) ^ 311 = 1 * 10 ^ (311 : Int) := by rw [one_mul]; rfl
    _ ≤ digits * 10 ^ exponent :=
        mul_le_mul hone (zpow_le_zpow_right₀ (by norm_num) (by omega)) (by positivity)
          (by positivity)

/-- A decimal below `10 ^ -330` is less than half of the smallest number. -/
theorem nearest_of_small {digits : Nat} {exponent : Int}
    (h : exponent + digits.log2 + 1 < -330) : Nearest (digits * 10 ^ exponent) 0 := by
  refine nearest_zero (by positivity) ?_
  have hdigits : (digits : ℚ) ≤ 10 ^ (digits.log2 + 1 : Int) := by
    have : digits ≤ 10 ^ (digits.log2 + 1) :=
      Nat.lt_log2_self.le.trans (Nat.pow_le_pow_left (by decide) _)
    exact_mod_cast this
  have hpow : (2 : ℚ) ^ 1075 ≤ 10 ^ 331 := by
    have : 2 ^ 1075 ≤ 10 ^ 331 := by decide +kernel
    exact_mod_cast this
  calc (digits : ℚ) * 10 ^ exponent * 2 ^ 1075
      ≤ 10 ^ (digits.log2 + 1 : Int) * 10 ^ exponent * 10 ^ 331 := by gcongr
    _ = 10 ^ (digits.log2 + 1 + exponent + 331 : Int) := by
        rw [← zpow_add₀ (by norm_num)]
        exact (zpow_add₀ (by norm_num) _ 331).symm
    _ ≤ 10 ^ (0 : Int) := zpow_le_zpow_right₀ (by norm_num) (by omega)
    _ = 1 := zpow_zero _

/-- **What is made of decimal digits and a power of ten is the nearest number**, also where the
power is not formed. -/
theorem ofDecimal_eq (negative : Bool) (digits : Nat) (exponent : Int) :
    ofDecimal negative digits exponent = nearest negative (digits * 10 ^ exponent) := by
  rw [ofDecimal]
  refine Nearest.eq_nearest ?_ negative
  split
  · next h =>
      rw [h, Nat.cast_zero, zero_mul]
      exact nearest_zero_zero
  split
  · next hd h => exact nearest_of_large hd h
  split
  · next h => exact nearest_of_small h
  · have hr : (digits * 10 ^ exponent : ℚ) =
        (digits * 10 ^ exponent.toNat : Nat) / (10 ^ (-exponent).toNat : Nat) := by
      push_cast
      rw [mul_div_assoc, ← zpow_natCast, ← zpow_natCast, ← zpow_sub₀ (by norm_num)]
      congr 2
      omega
    rw [hr]
    exact nearest_roundRatio _ (Nat.pow_pos (by decide))

end JsonTree.Binary64
