import JsonTree.Utf8
import JsonTree.Proofs.Scan
import Mathlib.Data.Nat.Bitwise

/-!
# UTF-8 — the table of well-formed sequences, and the two functions that keep to it

`Encodes n c` says that the bytes `c` are a character of code point `n`, one rule for each row of
the standard's table of well-formed byte sequences; `WellFormed` is a sequence of such characters.
Neither mentions how characters are read or written.

* `decode?_eq_some_iff`: the reader finds a character of `k` bytes at the front exactly when the
  table has one there.
* `encodes_iff`: the characters of the table are what the writer makes of the code points that are
  no surrogates and at most `0x10FFFF`.
-/

namespace JsonTree.Utf8

/-- A byte that may stand behind the first of a sequence. -/
def Tail (b : UInt8) : Prop :=
  0x80 ≤ b ∧ b ≤ 0xBF

instance (b : UInt8) : Decidable (Tail b) :=
  inferInstanceAs (Decidable (0x80 ≤ b ∧ b ≤ 0xBF))

/-- The low six bits, those that a tail byte adds. -/
def tailBits (b : UInt8) : Nat :=
  b.toNat % 64

/-- The bytes are a character of the code point. -/
inductive Encodes : Nat → Bytes → Prop where
  /-- `00..7F` -/
  | one {a : UInt8} : a ≤ 0x7F → Encodes a.toNat [a]
  /-- `C2..DF 80..BF` -/
  | two {a b : UInt8} : 0xC2 ≤ a → a ≤ 0xDF → Tail b →
      Encodes ((a.toNat - 0xC0) * 64 + tailBits b) [a, b]
  /-- `E0 A0..BF 80..BF` -/
  | e0 {b c : UInt8} : 0xA0 ≤ b → b ≤ 0xBF → Tail c →
      Encodes (tailBits b * 64 + tailBits c) [0xE0, b, c]
  /-- `E1..EC 80..BF 80..BF` -/
  | e1 {a b c : UInt8} : 0xE1 ≤ a → a ≤ 0xEC → Tail b → Tail c →
      Encodes (((a.toNat - 0xE0) * 64 + tailBits b) * 64 + tailBits c) [a, b, c]
  /-- `ED 80..9F 80..BF` -/
  | ed {b c : UInt8} : 0x80 ≤ b → b ≤ 0x9F → Tail c →
      Encodes ((0xD * 64 + tailBits b) * 64 + tailBits c) [0xED, b, c]
  /-- `EE..EF 80..BF 80..BF` -/
  | ee {a b c : UInt8} : 0xEE ≤ a → a ≤ 0xEF → Tail b → Tail c →
      Encodes (((a.toNat - 0xE0) * 64 + tailBits b) * 64 + tailBits c) [a, b, c]
  /-- `F0 90..BF 80..BF 80..BF` -/
  | f0 {b c d : UInt8} : 0x90 ≤ b → b ≤ 0xBF → Tail c → Tail d →
      Encodes ((tailBits b * 64 + tailBits c) * 64 + tailBits d) [0xF0, b, c, d]
  /-- `F1..F3 80..BF 80..BF 80..BF` -/
  | f1 {a b c d : UInt8} : 0xF1 ≤ a → a ≤ 0xF3 → Tail b → Tail c → Tail d →
      Encodes ((((a.toNat - 0xF0) * 64 + tailBits b) * 64 + tailBits c) * 64 + tailBits d)
        [a, b, c, d]
  /-- `F4 80..8F 80..BF 80..BF` -/
  | f4 {b c d : UInt8} : 0x80 ≤ b → b ≤ 0x8F → Tail c → Tail d →
      Encodes (((4 * 64 + tailBits b) * 64 + tailBits c) * 64 + tailBits d) [0xF4, b, c, d]

/-- The bytes are characters, one after the other. -/
inductive WellFormed : Bytes → Prop where
  | nil : WellFormed []
  | cons {n : Nat} {c rest : Bytes} : Encodes n c → WellFormed rest → WellFormed (c ++ rest)

/-! ### Reading -/

/-- What a first byte announces, by ranges. -/
theorem lead?_eq : ∀ b : UInt8,
    lead? b =
      if b.toNat < 0x80 then some ⟨1, b.toNat, 0⟩
      else if b.toNat < 0xC0 then none
      else if b.toNat < 0xE0 then some ⟨2, b.toNat - 0xC0, 0x80⟩
      else if b.toNat < 0xF0 then some ⟨3, b.toNat - 0xE0, 0x800⟩
      else if b.toNat < 0xF8 then some ⟨4, b.toNat - 0xF0, 0x10000⟩
      else none :=
  forall_byte (by decide)

/-- The test of the top two bits is the one for a tail byte. -/
theorem isTail_eq : ∀ b : UInt8, (b &&& 0xC0 == 0x80) = decide (Tail b) :=
  forall_byte (by decide)

/-- The low six bits of a tail byte are its payload. -/
theorem payload_eq : ∀ b : UInt8, Tail b → (b &&& 0x3F).toNat = tailBits b :=
  forall_byte (by decide)

/-- The tail bytes are those from 0x80 to 0xBF. -/
theorem tail_iff (b : UInt8) : Tail b ↔ 0x80 ≤ b.toNat ∧ b.toNat ≤ 0xBF := by
  simp only [Tail, UInt8.le_iff_toNat_le, UInt8.reduceToNat]

/-- A tail byte carries six bits. -/
theorem tailBits_lt (b : UInt8) : tailBits b < 64 :=
  Nat.mod_lt _ (by decide)

/-- One tail byte more puts its six bits behind those so far. -/
theorem continuation?_cons {b : UInt8} (h : Tail b) (count soFar : Nat) (bs : Bytes) :
    continuation? (count + 1) soFar (b :: bs) =
      continuation? count (soFar * 64 + tailBits b) bs := by
  have hb : tailBits b < 2 ^ 6 := tailBits_lt b
  rw [continuation?, isTail_eq, decide_eq_true h, if_pos rfl, payload_eq b h,
    ← Nat.shiftLeft_add_eq_or_of_lt hb, Nat.shiftLeft_eq]

/-- Continuation bytes that can be joined are tail bytes. -/
theorem continuation?_inv {count soFar n : Nat} {bs : Bytes}
    (h : continuation? (count + 1) soFar bs = some n) :
    ∃ b rest, bs = b :: rest ∧ Tail b ∧
      continuation? count (soFar * 64 + tailBits b) rest = some n := by
  cases bs with
  | nil => cases h
  | cons b rest =>
      by_cases ht : Tail b
      · rw [continuation?_cons ht] at h
        exact ⟨b, rest, rfl, ht, h⟩
      · rw [continuation?, isTail_eq, decide_eq_false ht] at h
        cases h

/-- A two-byte sequence that is not longer than needed. -/
theorem Encodes.of_two {a b : UInt8} (h₁ : 0xC0 ≤ a.toNat) (h₂ : a.toNat < 0xE0) (hb : Tail b)
    (hn : 0x80 ≤ (a.toNat - 0xC0) * 64 + tailBits b) :
    Encodes ((a.toNat - 0xC0) * 64 + tailBits b) [a, b] := by
  have hb' := tailBits_lt b
  refine .two ?_ ?_ hb <;> simp only [UInt8.le_iff_toNat_le, UInt8.reduceToNat] <;> omega

/-- A three-byte sequence that is not longer than needed and no surrogate. -/
theorem Encodes.of_three {a b c : UInt8} (h₁ : 0xE0 ≤ a.toNat) (h₂ : a.toNat < 0xF0) (hb : Tail b)
    (hc : Tail c) (hn : 0x800 ≤ ((a.toNat - 0xE0) * 64 + tailBits b) * 64 + tailBits c)
    (hs : isScalar (((a.toNat - 0xE0) * 64 + tailBits b) * 64 + tailBits c) = true) :
    Encodes (((a.toNat - 0xE0) * 64 + tailBits b) * 64 + tailBits c) [a, b, c] := by
  -- the two rows whose second byte is restricted first: one for length, one for surrogates
  have hb' := tailBits_lt b
  have hc' := tailBits_lt c
  have hbt := (tail_iff b).mp hb
  simp only [isScalar, Bool.and_eq_true, Bool.not_eq_true', decide_eq_true_eq,
    Bool.and_eq_false_iff, decide_eq_false_iff_not, Nat.not_le] at hs
  by_cases h0 : a.toNat = 0xE0
  · obtain rfl : a = 0xE0 := UInt8.toNat_inj.mp h0
    simp only [UInt8.reduceToNat, Nat.sub_self, Nat.zero_mul, Nat.zero_add] at hn ⊢
    refine .e0 ?_ hb.2 hc
    simp only [tailBits, UInt8.le_iff_toNat_le, UInt8.reduceToNat] at *
    omega
  by_cases hd : a.toNat = 0xED
  · obtain rfl : a = 0xED := UInt8.toNat_inj.mp hd
    simp only [UInt8.reduceToNat, Nat.reduceSub] at hs ⊢
    refine .ed hb.1 ?_ hc
    simp only [tailBits, UInt8.le_iff_toNat_le, UInt8.reduceToNat] at *
    omega
  by_cases hlow : a.toNat ≤ 0xEC
  · refine .e1 ?_ ?_ hb hc <;> simp only [UInt8.le_iff_toNat_le, UInt8.reduceToNat] <;> omega
  · refine .ee ?_ ?_ hb hc <;> simp only [UInt8.le_iff_toNat_le, UInt8.reduceToNat] <;> omega

/-- A four-byte sequence that is not longer than needed and not beyond the last code point. -/
theorem Encodes.of_four {a b c d : UInt8} (h₁ : 0xF0 ≤ a.toNat) (hb : Tail b)
    (hc : Tail c) (hd : Tail d)
    (hn : 0x10000 ≤
      (((a.toNat - 0xF0) * 64 + tailBits b) * 64 + tailBits c) * 64 + tailBits d)
    (hs : (((a.toNat - 0xF0) * 64 + tailBits b) * 64 + tailBits c) * 64 + tailBits d
      ≤ 0x10FFFF) :
    Encodes ((((a.toNat - 0xF0) * 64 + tailBits b) * 64 + tailBits c) * 64 + tailBits d)
      [a, b, c, d] := by
  -- again the restricted rows first: one for length, one for the last code point
  have hb' := tailBits_lt b
  have hc' := tailBits_lt c
  have hd' := tailBits_lt d
  have hbt := (tail_iff b).mp hb
  by_cases h0 : a.toNat = 0xF0
  · obtain rfl : a = 0xF0 := UInt8.toNat_inj.mp h0
    simp only [UInt8.reduceToNat, Nat.sub_self, Nat.zero_mul, Nat.zero_add] at hn ⊢
    refine .f0 ?_ hb.2 hc hd
    simp only [tailBits, UInt8.le_iff_toNat_le, UInt8.reduceToNat] at *
    omega
  by_cases h4 : a.toNat = 0xF4
  · obtain rfl : a = 0xF4 := UInt8.toNat_inj.mp h4
    simp only [UInt8.reduceToNat, Nat.reduceSub] at hs ⊢
    refine .f4 hb.1 ?_ hc hd
    simp only [tailBits, UInt8.le_iff_toNat_le, UInt8.reduceToNat] at *
    omega
  · refine .f1 ?_ ?_ hb hc hd <;> simp only [UInt8.le_iff_toNat_le, UInt8.reduceToNat] <;> omega

/-- What is decoded has a lead byte, its tail bytes, and a scalar that is not overlong. -/
theorem decode?_inv {bs : Bytes} {n k : Nat} (h : decode? bs = some (n, k)) :
    ∃ b rest lead, bs = b :: rest ∧ lead? b = some lead ∧
      continuation? (lead.length - 1) lead.payload rest = some n ∧ lead.least ≤ n ∧
      isScalar n = true ∧ k = lead.length := by
  unfold decode? at h
  split at h
  · cases h
  next b rest =>
    split at h
    · cases h
    next lead hl =>
      split at h
      · cases h
      next m hm =>
        split at h
        · next hk =>
            simp only [Bool.and_eq_true, decide_eq_true_eq] at hk
            obtain ⟨rfl, rfl⟩ := Prod.mk.inj (Option.some.inj h)
            exact ⟨b, rest, lead, rfl, hl, hm, hk.1, hk.2, rfl⟩
        · cases h

/-- A lead byte with its tail bytes is decoded if the scalar is not overlong. -/
theorem decode?_cons {b : UInt8} {rest : Bytes} {lead : Lead} {n : Nat} (hl : lead? b = some lead)
    (hc : continuation? (lead.length - 1) lead.payload rest = some n) (hn : lead.least ≤ n)
    (hs : isScalar n = true) : decode? (b :: rest) = some (n, lead.length) := by
  simp only [decode?, hl, hc, hs, decide_eq_true hn, Bool.and_self, ↓reduceIte]

/-- What is read at the front is a character of the table. -/
theorem encodes_of_decode? {bs : Bytes} {n k : Nat} (h : decode? bs = some (n, k)) :
    ∃ c rest, bs = c ++ rest ∧ c.length = k ∧ Encodes n c := by
  obtain ⟨a, rest, lead, rfl, hl, hc, hn, hs, rfl⟩ := decode?_inv h
  have hmax : n ≤ 0x10FFFF := by
    simp only [isScalar, Bool.and_eq_true, decide_eq_true_eq] at hs
    exact hs.1
  rw [lead?_eq] at hl
  -- by what the first byte announces; one, two, three or four bytes
  split at hl
  · next h1 =>
      cases hl
      cases hc
      have ha : a ≤ 0x7F := by
        simp only [UInt8.le_iff_toNat_le, UInt8.reduceToNat]
        omega
      exact ⟨[a], rest, rfl, rfl, .one ha⟩
  split at hl
  · cases hl
  split at hl
  · cases hl
    obtain ⟨b, rest, rfl, hb, hc⟩ := continuation?_inv hc
    cases hc
    exact ⟨[a, b], rest, rfl, rfl, .of_two (by omega) (by omega) hb hn⟩
  split at hl
  · cases hl
    obtain ⟨b, rest, rfl, hb, hc⟩ := continuation?_inv hc
    obtain ⟨c, rest, rfl, hc', hc⟩ := continuation?_inv hc
    cases hc
    exact ⟨[a, b, c], rest, rfl, rfl, .of_three (by omega) (by omega) hb hc' hn hs⟩
  split at hl
  · cases hl
    obtain ⟨b, rest, rfl, hb, hc⟩ := continuation?_inv hc
    obtain ⟨c, rest, rfl, hc', hc⟩ := continuation?_inv hc
    obtain ⟨d, rest, rfl, hd, hc⟩ := continuation?_inv hc
    cases hc
    exact ⟨[a, b, c, d], rest, rfl, rfl, .of_four (by omega) hb hc' hd hn hmax⟩
  · cases hl

/-- The scalars are the code points but the surrogates. -/
theorem isScalar_iff (n : Nat) : isScalar n = true ↔ n < 0xD800 ∨ 0xE000 ≤ n ∧ n ≤ 0x10FFFF := by
  simp only [isScalar, Bool.and_eq_true, Bool.not_eq_true', decide_eq_true_eq,
    Bool.and_eq_false_iff, decide_eq_false_iff_not, Nat.not_le]
  omega

/-- Three bytes are decoded as sixteen bits. -/
theorem decode?_three {a b c : UInt8} (h₁ : 0xE0 ≤ a.toNat) (h₂ : a.toNat < 0xF0) (hb : Tail b)
    (hc : Tail c) (rest : Bytes)
    (hn : 0x800 ≤ ((a.toNat - 0xE0) * 64 + tailBits b) * 64 + tailBits c)
    (hs : isScalar (((a.toNat - 0xE0) * 64 + tailBits b) * 64 + tailBits c) = true) :
    decode? (a :: b :: c :: rest) =
      some (((a.toNat - 0xE0) * 64 + tailBits b) * 64 + tailBits c, 3) := by
  have hl : lead? a = some ⟨3, a.toNat - 0xE0, 0x800⟩ := by
    rw [lead?_eq, if_neg (by omega), if_neg (by omega), if_neg (by omega), if_pos (by omega)]
  refine decode?_cons hl ?_ hn hs
  exact (continuation?_cons hb 1 _ _).trans (continuation?_cons hc 0 _ rest)

/-- Four bytes are decoded as twenty-one bits. -/
theorem decode?_four {a b c d : UInt8} (h₁ : 0xF0 ≤ a.toNat) (h₂ : a.toNat < 0xF8) (hb : Tail b)
    (hc : Tail c) (hd : Tail d) (rest : Bytes)
    (hn : 0x10000 ≤
      (((a.toNat - 0xF0) * 64 + tailBits b) * 64 + tailBits c) * 64 + tailBits d)
    (hs : isScalar ((((a.toNat - 0xF0) * 64 + tailBits b) * 64 + tailBits c) * 64 + tailBits d)
      = true) :
    decode? (a :: b :: c :: d :: rest) =
      some ((((a.toNat - 0xF0) * 64 + tailBits b) * 64 + tailBits c) * 64 + tailBits d, 4) := by
  have hl : lead? a = some ⟨4, a.toNat - 0xF0, 0x10000⟩ := by
    rw [lead?_eq, if_neg (by omega), if_neg (by omega), if_neg (by omega), if_neg (by omega),
      if_pos (by omega)]
  refine decode?_cons hl ?_ hn hs
  exact (continuation?_cons hb 2 _ _).trans
    ((continuation?_cons hc 1 _ _).trans (continuation?_cons hd 0 _ rest))

/-- A character of the table is read, whatever follows it. -/
theorem decode?_of_encodes {n : Nat} {c : Bytes} (h : Encodes n c) (rest : Bytes) :
    decode? (c ++ rest) = some (n, c.length) := by
  cases h with
  | @one a ha =>
      simp only [UInt8.le_iff_toNat_le, UInt8.reduceToNat] at ha
      have hl : lead? a = some ⟨1, a.toNat, 0⟩ := by
        rw [lead?_eq, if_pos (by omega)]
      exact decode?_cons hl rfl (Nat.zero_le _) ((isScalar_iff _).mpr (by omega))
  | @two a b h₁ h₂ hb =>
      have hb' := tailBits_lt b
      simp only [UInt8.le_iff_toNat_le, UInt8.reduceToNat] at h₁ h₂
      have hl : lead? a = some ⟨2, a.toNat - 0xC0, 0x80⟩ := by
        rw [lead?_eq, if_neg (by omega), if_neg (by omega), if_pos (by omega)]
      refine decode?_cons hl ?_ (by dsimp only; omega) ((isScalar_iff _).mpr (by omega))
      exact continuation?_cons hb 0 _ rest
  | @e0 b c h₁ h₂ hc =>
      have hb : Tail b := ⟨UInt8.le_trans (by decide) h₁, h₂⟩
      have hc' := tailBits_lt c
      simp only [UInt8.le_iff_toNat_le, UInt8.reduceToNat] at h₁ h₂
      have hb' : 32 ≤ tailBits b ∧ tailBits b < 64 := by simp only [tailBits]; omega
      have := decode?_three (a := 0xE0) (by decide) (by decide) hb hc rest
      simp only [UInt8.reduceToNat, Nat.sub_self, Nat.zero_mul, Nat.zero_add] at this
      exact this (by omega) ((isScalar_iff _).mpr (by omega))
  | @e1 a b c h₁ h₂ hb hc =>
      have hb' := tailBits_lt b
      have hc' := tailBits_lt c
      simp only [UInt8.le_iff_toNat_le, UInt8.reduceToNat] at h₁ h₂
      exact decode?_three (by omega) (by omega) hb hc rest (by omega)
        ((isScalar_iff _).mpr (by omega))
  | @ed b c h₁ h₂ hc =>
      have hb : Tail b := ⟨h₁, UInt8.le_trans h₂ (by decide)⟩
      have hc' := tailBits_lt c
      simp only [UInt8.le_iff_toNat_le, UInt8.reduceToNat] at h₁ h₂
      have hb' : tailBits b < 32 := by simp only [tailBits]; omega
      exact decode?_three (a := 0xED) (by decide) (by decide) hb hc rest
        (by simp only [UInt8.reduceToNat]; omega)
        ((isScalar_iff _).mpr (by simp only [UInt8.reduceToNat]; omega))
  | @ee a b c h₁ h₂ hb hc =>
      have hb' := tailBits_lt b
      have hc' := tailBits_lt c
      simp only [UInt8.le_iff_toNat_le, UInt8.reduceToNat] at h₁ h₂
      exact decode?_three (by omega) (by omega) hb hc rest (by omega)
        ((isScalar_iff _).mpr (by omega))
  | @f0 b c d h₁ h₂ hc hd =>
      have hb : Tail b := ⟨UInt8.le_trans (by decide) h₁, h₂⟩
      have hc' := tailBits_lt c
      have hd' := tailBits_lt d
      simp only [UInt8.le_iff_toNat_le, UInt8.reduceToNat] at h₁ h₂
      have hb' : 16 ≤ tailBits b ∧ tailBits b < 64 := by simp only [tailBits]; omega
      have := decode?_four (a := 0xF0) (by decide) (by decide) hb hc hd rest
      simp only [UInt8.reduceToNat, Nat.sub_self, Nat.zero_mul, Nat.zero_add] at this
      exact this (by omega) ((isScalar_iff _).mpr (by omega))
  | @f1 a b c d h₁ h₂ hb hc hd =>
      have hb' := tailBits_lt b
      have hc' := tailBits_lt c
      have hd' := tailBits_lt d
      simp only [UInt8.le_iff_toNat_le, UInt8.reduceToNat] at h₁ h₂
      exact decode?_four (by omega) (by omega) hb hc hd rest (by omega)
        ((isScalar_iff _).mpr (by omega))
  | @f4 b c d h₁ h₂ hc hd =>
      have hb : Tail b := ⟨h₁, UInt8.le_trans h₂ (by decide)⟩
      have hc' := tailBits_lt c
      have hd' := tailBits_lt d
      simp only [UInt8.le_iff_toNat_le, UInt8.reduceToNat] at h₁ h₂
      have hb' : tailBits b < 16 := by simp only [tailBits]; omega
      exact decode?_four (a := 0xF4) (by decide) (by decide) hb hc hd rest
        (by simp only [UInt8.reduceToNat]; omega)
        ((isScalar_iff _).mpr (by simp only [UInt8.reduceToNat]; omega))

/-- **The reader keeps to the table.**  There is a character of `k` bytes at the front exactly
when the table has one there. -/
theorem decode?_eq_some_iff {bs : Bytes} {n k : Nat} :
    decode? bs = some (n, k) ↔ ∃ c rest, bs = c ++ rest ∧ c.length = k ∧ Encodes n c := by
  constructor
  · exact encodes_of_decode?
  · rintro ⟨c, rest, rfl, rfl, h⟩
    exact decode?_of_encodes h rest

/-- Only scalars are encoded. -/
theorem Encodes.isScalar {n : Nat} {c : Bytes} (h : Encodes n c) : Utf8.isScalar n = true := by
  obtain ⟨_, _, _, _, _, _, _, hs, _⟩ := decode?_inv (decode?_of_encodes h [])
  exact hs

theorem Encodes.length_pos {n : Nat} {c : Bytes} (h : Encodes n c) : 0 < c.length := by
  cases h <;> exact Nat.succ_pos _

/-- A scalar takes four bytes at most. -/
theorem Encodes.length_le {n : Nat} {c : Bytes} (h : Encodes n c) : c.length ≤ 4 := by
  cases h <;> simp

/-- A character beyond ASCII is written with bytes beyond ASCII. -/
theorem Encodes.beyond_ascii {n : Nat} {c : Bytes} (h : Encodes n c) (hn : 0x80 ≤ n) :
    ∀ b ∈ c, 0x80 ≤ b := by
  cases h <;>
    simp only [Tail, List.forall_mem_cons, UInt8.le_iff_toNat_le, UInt8.reduceToNat] at * <;>
    simp <;> omega

/-- A character is one byte of ASCII, or lies beyond ASCII. -/
theorem Encodes.ascii_or_beyond {n : Nat} {c : Bytes} (h : Encodes n c) :
    (∃ b : UInt8, b ≤ 0x7F ∧ c = [b] ∧ n = b.toNat) ∨ 0x80 ≤ n := by
  cases h with
  | one ha => exact .inl ⟨_, ha, rfl, rfl⟩
  | _ =>
      right
      simp only [Tail, UInt8.le_iff_toNat_le, UInt8.reduceToNat] at *
      simp only [tailBits]
      omega

/-! ### Writing -/

/-- Six bits under the mark of a tail byte. -/
theorem tail_toUInt8 (m : Nat) : (0x80 ||| m &&& 0x3F).toUInt8 = UInt8.ofNat (0x80 + m % 64) := by
  have hm : m &&& 0x3F = m % 64 := Nat.and_two_pow_sub_one_eq_mod m 6
  have hlt : m % 64 < 2 ^ 6 := Nat.mod_lt m (by decide)
  rw [hm]
  exact congrArg UInt8.ofNat (Nat.two_pow_add_eq_or_of_lt hlt 2).symm

/-- The two bytes of a scalar beyond ASCII. -/
theorem encode_two {n : Nat} (h₁ : 0x80 ≤ n) (h₂ : n ≤ 0x7FF) :
    encode n = [UInt8.ofNat (0xC0 + n / 64), UInt8.ofNat (0x80 + n % 64)] := by
  have ha : n / 64 < 2 ^ 5 := by omega
  have hl : (0xC0 ||| n >>> 6) = 0xC0 + n / 64 := by
    rw [Nat.shiftRight_eq_div_pow]
    exact (Nat.two_pow_add_eq_or_of_lt ha 6).symm
  rw [encode, if_neg (by omega), if_pos h₂, tail_toUInt8, hl]

/-- The three bytes of a scalar of the basic plane. -/
theorem encode_three {n : Nat} (h₁ : 0x800 ≤ n) (h₂ : n ≤ 0xFFFF) :
    encode n = [UInt8.ofNat (0xE0 + n / 4096), UInt8.ofNat (0x80 + n / 64 % 64),
      UInt8.ofNat (0x80 + n % 64)] := by
  have ha : n / 4096 < 2 ^ 4 := by omega
  have hl : (0xE0 ||| n >>> 12) = 0xE0 + n / 4096 := by
    rw [Nat.shiftRight_eq_div_pow]
    exact (Nat.two_pow_add_eq_or_of_lt ha 14).symm
  rw [encode, if_neg (by omega), if_neg (by omega), if_pos h₂, tail_toUInt8, tail_toUInt8, hl,
    Nat.shiftRight_eq_div_pow]

/-- The four bytes of a scalar beyond the basic plane. -/
theorem encode_four {n : Nat} (h₁ : 0x10000 ≤ n) (h₂ : n ≤ 0x10FFFF) :
    encode n = [UInt8.ofNat (0xF0 + n / 262144), UInt8.ofNat (0x80 + n / 4096 % 64),
      UInt8.ofNat (0x80 + n / 64 % 64), UInt8.ofNat (0x80 + n % 64)] := by
  have ha : n / 262144 < 2 ^ 3 := by omega
  have hl : (0xF0 ||| n >>> 18) = 0xF0 + n / 262144 := by
    rw [Nat.shiftRight_eq_div_pow]
    exact (Nat.two_pow_add_eq_or_of_lt ha 30).symm
  rw [encode, if_neg (by omega), if_neg (by omega), if_neg (by omega), tail_toUInt8, tail_toUInt8,
    tail_toUInt8, hl, Nat.shiftRight_eq_div_pow, Nat.shiftRight_eq_div_pow]

theorem toNat_ofNat {n : Nat} (h : n < 256) : (UInt8.ofNat n).toNat = n := by
  rw [UInt8.toNat_ofNat']
  exact Nat.mod_eq_of_lt h

theorem tail_ofNat (m : Nat) : Tail (UInt8.ofNat (0x80 + m % 64)) := by
  rw [tail_iff, toNat_ofNat (by omega)]
  omega

theorem tailBits_ofNat (m : Nat) : tailBits (UInt8.ofNat (0x80 + m % 64)) = m % 64 := by
  rw [tailBits, toNat_ofNat (by omega)]
  omega

/-- What is written of a code point that is no surrogate and not too large is its character. -/
theorem encodes_encode {n : Nat} (h : isScalar n = true) : Encodes n (encode n) := by
  rw [isScalar_iff] at h
  by_cases h1 : n < 0x80
  · have ha : (UInt8.ofNat n).toNat = n := toNat_ofNat (by omega)
    have := Encodes.one (a := UInt8.ofNat n)
      (by simp only [UInt8.le_iff_toNat_le, ha, UInt8.reduceToNat]; omega)
    rw [ha] at this
    rw [encode, if_pos (by omega)]
    exact this
  by_cases h2 : n < 0x800
  · have ha : (UInt8.ofNat (0xC0 + n / 64)).toNat = 0xC0 + n / 64 := toNat_ofNat (by omega)
    have hn : (0xC0 + n / 64 - 0xC0) * 64 + n % 64 = n := by omega
    have := Encodes.of_two (a := UInt8.ofNat (0xC0 + n / 64)) (by omega) (by omega) (tail_ofNat n)
    rw [ha, tailBits_ofNat, hn] at this
    rw [encode_two (by omega) (by omega)]
    exact this (by omega)
  by_cases h3 : n < 0x10000
  · have ha : (UInt8.ofNat (0xE0 + n / 4096)).toNat = 0xE0 + n / 4096 := toNat_ofNat (by omega)
    have hn : ((0xE0 + n / 4096 - 0xE0) * 64 + n / 64 % 64) * 64 + n % 64 = n := by omega
    have := Encodes.of_three (a := UInt8.ofNat (0xE0 + n / 4096)) (by omega) (by omega)
      (tail_ofNat (n / 64)) (tail_ofNat n)
    rw [ha, tailBits_ofNat, tailBits_ofNat, hn] at this
    rw [encode_three (by omega) (by omega)]
    exact this (by omega) ((isScalar_iff n).mpr h)
  · have ha : (UInt8.ofNat (0xF0 + n / 262144)).toNat = 0xF0 + n / 262144 := toNat_ofNat (by omega)
    have hn : (((0xF0 + n / 262144 - 0xF0) * 64 + n / 4096 % 64) * 64 + n / 64 % 64) * 64 + n % 64
        = n := by omega
    have := Encodes.of_four (a := UInt8.ofNat (0xF0 + n / 262144)) (by omega)
      (tail_ofNat (n / 4096)) (tail_ofNat (n / 64)) (tail_ofNat n)
    rw [ha, tailBits_ofNat, tailBits_ofNat, tailBits_ofNat, hn] at this
    rw [encode_four (by omega) (by omega)]
    exact this (by omega) (by omega)

/-- A tail byte is known by its six bits. -/
theorem ofNat_tail {b : UInt8} (h : Tail b) : UInt8.ofNat (0x80 + tailBits b) = b := by
  rw [tail_iff] at h
  have : 0x80 + b.toNat % 64 = b.toNat := by omega
  rw [tailBits, this, UInt8.ofNat_toNat]

/-- Three bytes are the encoding of the scalar that they are decoded as. -/
theorem encode_of_three {a b c : UInt8} {n : Nat} (h₁ : 0xE0 ≤ a.toNat) (h₂ : a.toNat < 0xF0)
    (hb : Tail b) (hc : Tail c) (hn : 0x800 ≤ n)
    (h : n = ((a.toNat - 0xE0) * 64 + tailBits b) * 64 + tailBits c) : encode n = [a, b, c] := by
  have hb' := tailBits_lt b
  have hc' := tailBits_lt c
  have h1 : 0xE0 + n / 4096 = a.toNat := by omega
  have h2 : n / 64 % 64 = tailBits b := by omega
  have h3 : n % 64 = tailBits c := by omega
  rw [encode_three hn (by omega), h1, h2, h3, ofNat_tail hb, ofNat_tail hc, UInt8.ofNat_toNat]

/-- Four bytes are the encoding of the scalar that they are decoded as. -/
theorem encode_of_four {a b c d : UInt8} {n : Nat} (h₁ : 0xF0 ≤ a.toNat) (hb : Tail b)
    (hc : Tail c) (hd : Tail d) (hn : 0x10000 ≤ n) (hn' : n ≤ 0x10FFFF)
    (h : n = (((a.toNat - 0xF0) * 64 + tailBits b) * 64 + tailBits c) * 64 + tailBits d) :
    encode n = [a, b, c, d] := by
  have hb' := tailBits_lt b
  have hc' := tailBits_lt c
  have hd' := tailBits_lt d
  have h1 : 0xF0 + n / 262144 = a.toNat := by omega
  have h2 : n / 4096 % 64 = tailBits b := by omega
  have h3 : n / 64 % 64 = tailBits c := by omega
  have h4 : n % 64 = tailBits d := by omega
  rw [encode_four hn hn', h1, h2, h3, h4, ofNat_tail hb, ofNat_tail hc, ofNat_tail hd,
    UInt8.ofNat_toNat]

/-- A code point has one character only. -/
theorem Encodes.encode_eq {n : Nat} {c : Bytes} (h : Encodes n c) : encode n = c := by
  have hs := (isScalar_iff n).mp h.isScalar
  cases h with
  | @one a ha =>
      simp only [UInt8.le_iff_toNat_le, UInt8.reduceToNat] at ha
      rw [encode, if_pos ha, Nat.toUInt8_eq, UInt8.ofNat_toNat]
  | @two a b h₁ h₂ hb =>
      have hb' := tailBits_lt b
      simp only [UInt8.le_iff_toNat_le, UInt8.reduceToNat] at h₁ h₂
      have h1 : 0xC0 + ((a.toNat - 0xC0) * 64 + tailBits b) / 64 = a.toNat := by omega
      have h2 : ((a.toNat - 0xC0) * 64 + tailBits b) % 64 = tailBits b := by omega
      rw [encode_two (by omega) (by omega), h1, h2, ofNat_tail hb, UInt8.ofNat_toNat]
  | @e0 b c h₁ h₂ hc =>
      have hb : Tail b := ⟨UInt8.le_trans (by decide) h₁, h₂⟩
      simp only [UInt8.le_iff_toNat_le, UInt8.reduceToNat] at h₁ h₂
      have hb' : 32 ≤ tailBits b := by simp only [tailBits]; omega
      exact encode_of_three (a := 0xE0) (by decide) (by decide) hb hc (by omega) (by simp)
  | @e1 a b c h₁ h₂ hb hc =>
      simp only [UInt8.le_iff_toNat_le, UInt8.reduceToNat] at h₁ h₂
      exact encode_of_three (by omega) (by omega) hb hc (by omega) rfl
  | @ed b c h₁ h₂ hc =>
      have hb : Tail b := ⟨h₁, UInt8.le_trans h₂ (by decide)⟩
      exact encode_of_three (a := 0xED) (by decide) (by decide) hb hc (by omega) rfl
  | @ee a b c h₁ h₂ hb hc =>
      simp only [UInt8.le_iff_toNat_le, UInt8.reduceToNat] at h₁ h₂
      exact encode_of_three (by omega) (by omega) hb hc (by omega) rfl
  | @f0 b c d h₁ h₂ hc hd =>
      have hb : Tail b := ⟨UInt8.le_trans (by decide) h₁, h₂⟩
      simp only [UInt8.le_iff_toNat_le, UInt8.reduceToNat] at h₁ h₂
      have hb' : 16 ≤ tailBits b := by simp only [tailBits]; omega
      exact encode_of_four (a := 0xF0) (by decide) hb hc hd (by omega) (by omega) (by simp)
  | @f1 a b c d h₁ h₂ hb hc hd =>
      simp only [UInt8.le_iff_toNat_le, UInt8.reduceToNat] at h₁ h₂
      exact encode_of_four (by omega) hb hc hd (by omega) (by omega) rfl
  | @f4 b c d h₁ h₂ hc hd =>
      have hb : Tail b := ⟨h₁, UInt8.le_trans h₂ (by decide)⟩
      exact encode_of_four (a := 0xF4) (by decide) hb hc hd (by omega) (by omega) rfl

/-- **The writer keeps to the table.** -/
theorem encodes_iff {n : Nat} {c : Bytes} : Encodes n c ↔ isScalar n = true ∧ c = encode n :=
  ⟨fun h => ⟨h.isScalar, h.encode_eq.symm⟩, fun ⟨hs, hc⟩ => hc ▸ encodes_encode hs⟩

end JsonTree.Utf8
