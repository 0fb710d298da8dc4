import JsonTree.Proofs.Pattern

/-!
# Integers — read exactly or not at all

A number that is asked for as an integer is looked at whole before anything is consumed, so it is
found exactly where one stands, whatever its length.  The digits are summed in 64 bits, with a test
before each step: up to any digit the sum is the exact number or has been given up, and it is given
up only when the exact number does not fit.  What is not handed out stays at the cursor, to be read
once more.

* `accumulate_append`: digits are summed one part after the other.
* `summed`: the sum is exact, and so is its opposite.
* `state_readInteger`: only an integer that is handed out moves the cursor behind it.
* `numbers_are_read_exactly`: all of it, from the bytes on.
-/

namespace JsonTree

open Ascii Bytes

namespace Numeral

/-! ### The sum -/

/-- Digits are summed one part after the other. -/
theorem accumulate_append (front back : Bytes) (total : UInt64) :
    accumulate (front ++ back) total = (accumulate front total).bind (accumulate back) := by
  induction front generalizing total with
  | nil => rfl
  | cons b front ih =>
      rw [List.cons_append, accumulate, accumulate]
      split
      · rfl
      · exact ih _

/-- What the sum of 64 bits is as the digits of a numeral are gone over: at every place what comes
of the digits so far, exact when there is a sum, and given up only where the exact number does not
fit. What is negated at the end is not negative, so that its opposite fits, but for the least
integer, which is put in by itself. -/
structure Summed (n : Numeral) : Prop where
  parts : ∀ front back, n.whole = front ++ back →
    accumulate n.whole 0 = (accumulate front 0).bind (accumulate back)
  exact : ∀ front back, n.whole = front ++ back → ∀ total, accumulate front 0 = some total →
    total.toNat = natOfDigits front
  refused : ∀ front back, n.whole = front ++ back →
    (accumulate front 0 = none ↔ 2 ^ 64 ≤ natOfDigits front)
  negated : n.negative = true → ∀ i, n.toInt64? = some i →
    (i = Int64.minValue ∧ n.toInt = -2 ^ 63) ∨
      ∃ m : Int64, i = -m ∧ m.toInt = natOfDigits n.whole ∧ i.toInt = -m.toInt

/-- A sum that has not been given up is exact. -/
theorem toNat_of_accumulate {ds : Bytes} {total : UInt64} (hds : ∀ b ∈ ds, isDigit b = true)
    (h : accumulate ds 0 = some total) : total.toNat = natOfDigits ds := by
  rw [accumulate_zero hds] at h
  split at h
  · next hlt =>
      rw [← Option.some.inj h]
      exact UInt64.toNat_ofNat_of_lt' hlt
  · cases h

theorem accumulate_eq_none_iff {ds : Bytes} (hds : ∀ b ∈ ds, isDigit b = true) :
    accumulate ds 0 = none ↔ 2 ^ 64 ≤ natOfDigits ds := by
  rw [accumulate_zero hds]
  split
  · next hlt => simpa using hlt
  · next hle => simpa using hle

/-- **The sum is exact at every digit**, and so is its opposite. -/
theorem summed {n : Numeral} (h : Digits n.whole) : n.Summed where
  parts front back hsplit := by rw [hsplit, accumulate_append]
  exact front back hsplit total htotal :=
    toNat_of_accumulate (fun b hb => h.2 b (hsplit ▸ List.mem_append_left _ hb)) htotal
  refused front back hsplit :=
    accumulate_eq_none_iff fun b hb => h.2 b (hsplit ▸ List.mem_append_left _ hb)
  negated hneg i hi := by
    rw [toInt64?] at hi
    split at hi
    · cases hi
    next total htotal =>
      have hsum := toNat_of_accumulate h.2 htotal
      rw [if_pos hneg] at hi
      split at hi
      · cases hi
      next hle =>
        rw [UInt64.lt_iff_toNat_lt, Nat.not_lt] at hle
        split at hi
        · next hleast =>
            refine .inl ⟨(Option.some.inj hi).symm, ?_⟩
            rw [toInt, if_pos hneg, ← hsum, hleast]
            rfl
        · next hne =>
            have hlt : total.toNat < 2 ^ 63 := by
              refine Nat.lt_of_le_of_ne hle fun heq => hne (UInt64.toNat_inj.mp heq)
            have hword : total.toInt64 = Int64.ofNat total.toNat := by
              rw [← UInt64.toInt64_ofNat', UInt64.ofNat_toNat]
            have hm : (Int64.ofNat total.toNat).toInt = total.toNat := Int64.toInt_ofNat_of_lt hlt
            rw [hword] at hi
            refine .inr ⟨Int64.ofNat total.toNat, (Option.some.inj hi).symm, by rw [hm, hsum], ?_⟩
            rw [← Option.some.inj hi, hm]
            exact Int64.toInt_neg_ofNat_of_le hle

theorem ofInt_eq_iff {z : Int} (h : Fits z) {i : Int64} : Int64.ofInt z = i ↔ i.toInt = z := by
  constructor
  · rintro rfl
    obtain ⟨hle, hlt⟩ := h
    exact Int64.toInt_ofInt_of_le hle hlt
  · rintro rfl
    exact i.ofInt_toInt

end Numeral

namespace Reader

/-! ### The cursor -/

/-- With the blanks gone over, the same number is read. -/
theorem NumberBehind.readFloat_skip {w : Blanks} {n : NumberLiteral} {s : Session Reader}
    (h : NumberBehind w n s) : readFloat (skip s w.text.length) =
      if n.nearest.isFinite then (n.nearest, skip s (w.text.length + n.text.length))
      else (Binary64.zero, failHere (skip s w.text.length) .numberOutOfRange) := by
  have hsame : readFloat (skip s w.text.length) = readFloat s := by
    rw [← h.skipBlank_eq, readFloat_skipBlank]
  rw [hsame, readFloat_of_number h]

/-- **Only an integer that is handed out moves the cursor behind it.** -/
theorem state_readInteger {s : Session Reader} (h : ∀ i, (readInteger s).1 ≠ .value i) :
    (readInteger s).2.state = (skipBlank s).state := by
  rw [readInteger] at h ⊢
  split
  · rfl
  split
  · rfl
  next m stop hm =>
    split
    · next hi =>
        split
        · rfl
        · next i hfits =>
            refine absurd ?_ (h i)
            rw [if_neg ‹_›, hm]
            dsimp only
            rw [if_pos hi, hfits]
    · rfl

end Reader

open Reader

/-- **Numbers are read exactly.**  A numeral is found at an index exactly where a number stands, and
up to where it ends.  Its digits are summed exactly, however many they are.

At a cursor with a number behind blanks, an attempt to read an integer hands out and goes over one
that has neither fraction nor power of ten and fits in 64 bits with a sign, as exactly the number
that it is; it tells that it is too large when it does not fit, and that it is no integer when it
has a fraction or a power of ten.  In these cases only the blanks are gone over, and reading a
floating point number then finds the same number: it goes over the whole of it, or tells that it is
out of range.

Wherever the cursor is, when no integer is handed out, only blanks are gone over. -/
theorem numbers_are_read_exactly :
    (∀ (s : Slice) (i j : Nat), (∃ n, numeralAt s i = some (n, j)) ↔
      ∃ token back, s.rest i = token ++ back ∧ j = i + token.length ∧ Stands token back) ∧
    (∀ n : NumberLiteral, n.numeral.Summed) ∧
    (∀ (w : Blanks) (n : NumberLiteral) (s : Session Reader), NumberBehind w n s →
      (∀ i, readInteger s = (.value i, skip s (w.text.length + n.text.length)) ↔
        n.numeral.isInteger = true ∧ i.toInt = n.numeral.toInt) ∧
      (readInteger s = (.tooLarge, skip s w.text.length) ↔
        n.numeral.isInteger = true ∧ ¬ Numeral.Fits n.numeral.toInt) ∧
      (readInteger s = (.notInteger, skip s w.text.length) ↔ n.numeral.isInteger = false) ∧
      ((∀ i, (readInteger s).1 ≠ .value i) → readFloat (readInteger s).2 =
        if n.nearest.isFinite then (n.nearest, skip s (w.text.length + n.text.length))
        else (Binary64.zero, failHere (skip s w.text.length) .numberOutOfRange))) ∧
    ∀ s : Session Reader, (∀ i, (readInteger s).1 ≠ .value i) →
      (readInteger s).2.state = (Reader.skipBlank s).state := by
  refine ⟨fun s i j => exists_numeralAt_iff, fun n => Numeral.summed n.proper.whole,
    fun w n s h => ?_, fun s h => state_readInteger h⟩
  have hread := readInteger_of_number h
  cases hi : n.numeral.isInteger with
  | false =>
      rw [hi, if_neg Bool.false_ne_true] at hread
      rw [hread]
      exact ⟨by simp, by simp, by simp, fun _ => h.readFloat_skip⟩
  | true =>
      rw [hi, if_pos rfl] at hread
      by_cases hfits : Numeral.Fits n.numeral.toInt
      · rw [if_pos hfits] at hread
        rw [hread]
        exact ⟨fun i => by simp [Numeral.ofInt_eq_iff hfits], by simp [hfits], by simp,
          fun hno => absurd rfl (hno _)⟩
      · rw [if_neg hfits] at hread
        rw [hread]
        have hne : ∀ i : Int64, i.toInt ≠ n.numeral.toInt := fun i hi =>
          hfits (hi ▸ ⟨i.le_toInt, i.toInt_lt⟩)
        exact ⟨fun i => by simp [hne], by simp [hfits], by simp, fun _ => h.readFloat_skip⟩

/-- One above the greatest integer of 64 bits with a sign. -/
def aboveGreatest : NumberLiteral where
  numeral := ⟨false, Bytes.ofString "9223372036854775808", none, none⟩
  proper := ⟨⟨by decide, List.all_eq_true.mp (by decide)⟩, by decide, by simp, by simp⟩

/-- A blank. -/
def oneBlank : Blanks :=
  ⟨[space], List.forall_mem_singleton.mpr rfl⟩

/-- A cursor before a blank and that number. -/
def beforeAboveGreatest : Session Reader :=
  start (.ofBytes 0 (Bytes.ofString " 9223372036854775808,")) {}

theorem numbers_are_read_exactly_aboveGreatest :
    NumberBehind oneBlank aboveGreatest beforeAboveGreatest ∧
      readInteger beforeAboveGreatest = (.tooLarge, skip beforeAboveGreatest 1) ∧
      (readInteger beforeAboveGreatest).2.state = (Reader.skipBlank beforeAboveGreatest).state := by
  have hbehind : NumberBehind oneBlank aboveGreatest beforeAboveGreatest :=
    ⟨[comma], rfl, stands_text_iff.mpr ⟨(stops_cons _ _ _).mpr rfl,
      fun _ _ => (stops_cons _ _ _).mpr rfl, fun _ => (stops_cons _ _ _).mpr rfl⟩⟩
  obtain ⟨-, -, hreads, hstays⟩ := numbers_are_read_exactly
  obtain ⟨-, hlarge, -, -⟩ := hreads _ _ _ hbehind
  have htold := hlarge.mpr ⟨rfl, by decide⟩
  refine ⟨hbehind, htold, hstays _ fun i hi => ?_⟩
  rw [htold] at hi
  cases hi

end JsonTree
