import JsonTree.Slice.Scan
import Mathlib.Data.Nat.Bitwise

/-!
# Scans — a block of sixteen answers as its bytes do one by one

A block becomes a mask, a mask becomes the place of its lowest bit.  Neither step loses anything:
bit `k` of a mask is the test of byte `k` (`testBit_mask`), so masks of several tests join as the
tests do (`mask_or`), and the lowest bit of a mask is the first byte that passes (`lowest_mask`).
A scan is therefore a search through the bytes that are left, whatever the length of what is
searched and wherever it begins (`scan_eq`), and all that is said about a scan afterwards is said
about lists: how many blanks or plain bytes it skips (`skipBlank_eq`, `skipPlain_eq`).
-/

namespace JsonTree

/-- What holds of every pair of half bytes holds of every byte. -/
theorem forall_byte {p : UInt8 → Prop} (h : ∀ m n : Fin 16, p (UInt8.ofNat (16 * m + n))) :
    ∀ b, p b := by
  intro b
  have hb : b.toNat < 256 := b.toNat_lt
  have hp := h ⟨b.toNat / 16, by omega⟩ ⟨b.toNat % 16, by omega⟩
  dsimp only at hp
  rwa [Nat.div_add_mod, UInt8.ofNat_toNat] at hp

namespace Bytes

/-! ### Runs of bytes -/

/-- The bytes do not begin with one that passes the test. -/
def Stops (test : UInt8 → Bool) (bs : Bytes) : Prop :=
  ∀ b ∈ bs.head?, test b = false

@[simp] theorem stops_nil (test : UInt8 → Bool) : Stops test [] := by
  simp [Stops]

@[simp] theorem stops_cons (test : UInt8 → Bool) (b : UInt8) (bs : Bytes) :
    Stops test (b :: bs) ↔ test b = false := by
  simp [Stops]

/-- Nothing goes on behind a whole run. -/
theorem stops_dropWhile (test : UInt8 → Bool) (bs : Bytes) : Stops test (bs.dropWhile test) := by
  intro b hb
  have := List.head?_dropWhile_not test bs
  rw [Option.mem_def.mp hb] at this
  simpa using this

/-- Where two parts both stop a run, so does the one followed by the other. -/
theorem stops_append {test : UInt8 → Bool} {front back : Bytes} (h : Stops test front)
    (h' : Stops test back) : Stops test (front ++ back) := by
  cases front with
  | nil => exact h'
  | cons b front => exact (stops_cons test b _).mpr ((stops_cons test b front).mp h)

/-- What stops a run stops it when it is cut off early, too. -/
theorem stops_takeWhile {test : UInt8 → Bool} {bs : Bytes} (h : Stops test bs)
    (test' : UInt8 → Bool) : Stops test (bs.takeWhile test') := by
  cases bs with
  | nil => exact stops_nil test
  | cons b bs =>
      rw [List.takeWhile_cons]
      split
      · exact (stops_cons test b _).mpr ((stops_cons test b bs).mp h)
      · exact stops_nil test

/-- What stops the longer runs of a weaker test stops the runs of a stronger one. -/
theorem Stops.mono {test test' : UInt8 → Bool} {bs : Bytes} (h : Stops test' bs)
    (ht : ∀ b, test b = true → test' b = true) : Stops test bs := by
  intro b hb
  by_contra hc
  have := h b hb
  rw [ht b (by simpa using hc)] at this
  cases this

/-- A run that nothing continues is the whole run at the front. -/
theorem takeWhile_run {test : UInt8 → Bool} {run rest : Bytes} (h : ∀ b ∈ run, test b = true)
    (hs : Stops test rest) : (run ++ rest).takeWhile test = run := by
  rw [List.takeWhile_append_of_pos h]
  cases rest with
  | nil => simp
  | cons b rest => simp [(stops_cons test b rest).mp hs]

/-- A run is dropped whole, and nothing behind it. -/
theorem dropWhile_run {test : UInt8 → Bool} {run rest : Bytes} (h : ∀ b ∈ run, test b = true)
    (hs : Stops test rest) : (run ++ rest).dropWhile test = rest := by
  rw [List.dropWhile_append_of_pos h]
  cases rest with
  | nil => simp
  | cons b rest => simp [(stops_cons test b rest).mp hs]

/-- Every byte of a run passes the test. -/
theorem of_mem_takeWhile {test : UInt8 → Bool} {bs : Bytes} :
    ∀ b ∈ bs.takeWhile test, test b = true :=
  List.all_eq_true.mp List.all_takeWhile

end Bytes

namespace Ascii

/-! ### Kinds of byte -/

/-- The blanks are space, tab, newline and carriage return. -/
theorem not_isBlank_iff (b : UInt8) : (!isBlank b) = true ↔
    b ≠ space ∧ b ≠ tab ∧ b ≠ newline ∧ b ≠ carriageReturn := by
  simp only [isBlank, Bool.not_eq_true', Bool.or_eq_false_iff, beq_eq_false_iff_ne]
  tauto

/-- Plain bytes are those of ASCII that are no quote, no backslash and no control byte. -/
theorem not_isPlain_iff (b : UInt8) : (!isPlain b) = true ↔
    b = quote ∨ b = backslash ∨ b ≤ 0x1F ∨ 0x80 ≤ b := by
  simp [isPlain, isControl, or_assoc]

/-- The bytes to be escaped are the quote, the backslash and the control bytes. -/
theorem mustEscape_iff (b : UInt8) : mustEscape b = true ↔
    b = quote ∨ b = backslash ∨ b ≤ 0x1F := by
  simp [mustEscape, isControl, or_assoc]

end Ascii

namespace Block

/-! ### Masks -/

/-- A bit of a mask tells whether the byte at its place passes the test. -/
theorem testBit_mask (test : UInt8 → Bool) (block : Bytes) (k : Nat) :
    (mask test block).testBit k = (block[k]?).any test := by
  induction block generalizing k with
  | nil => simp [mask]
  | cons b block ih =>
      cases k with
      | zero =>
          rw [mask, Nat.testBit_zero]
          cases h : test b <;> simp [h]
      | succ k =>
          have half : (2 * mask test block + (test b).toNat) / 2 = mask test block := by
            have := Bool.toNat_lt (test b)
            omega
          rw [mask, Nat.testBit_succ, half, ih, List.getElem?_cons_succ]

/-- Two masks together are the mask of either test. -/
theorem mask_or (p q : UInt8 → Bool) (block : Bytes) :
    mask p block ||| mask q block = mask (fun b => p b || q b) block := by
  apply Nat.eq_of_testBit_eq
  intro k
  rw [Nat.testBit_or, testBit_mask, testBit_mask, testBit_mask]
  cases block[k]? <;> rfl

/-- Turning every bit of the mask of a whole block around turns the test around. -/
theorem full_xor_mask (p : UInt8 → Bool) {block : Bytes} (h : block.length = width) :
    full ^^^ mask p block = mask (fun b => !p b) block := by
  apply Nat.eq_of_testBit_eq
  intro k
  have hf : full = 2 ^ 16 - 1 := rfl
  rw [Nat.testBit_xor, hf, Nat.testBit_two_pow_sub_one, testBit_mask, testBit_mask]
  rw [width] at h
  by_cases hk : k < 16
  · rw [List.getElem?_eq_getElem (by omega)]
    simp [hk]
  · rw [List.getElem?_eq_none (by omega)]
    simp [hk]

/-- A mask is empty when no byte of the block passes the test. -/
theorem mask_eq_zero_iff (test : UInt8 → Bool) (block : Bytes) :
    mask test block = 0 ↔ block.findIdx test = block.length := by
  induction block with
  | nil => simp [mask]
  | cons b block ih =>
      rw [mask, List.findIdx_cons]
      cases h : test b
      · simp [← ih]
      · simp

/-- The lowest bit of a mask is at the place of the first byte that passes. -/
theorem lowest_mask (test : UInt8 → Bool) (block : Bytes) :
    lowest block.length (mask test block) = block.findIdx test := by
  induction block with
  | nil => rfl
  | cons b block ih =>
      rw [List.length_cons, lowest, mask, List.findIdx_cons]
      cases h : test b
      · have half : (2 * mask test block + false.toNat) / 2 = mask test block := by simp
        rw [half, ih]
        simp
      · simp

/-! ### The three tests -/

/-- A byte is a control byte when nothing is left of it behind the last one. -/
theorem monus_lastControl : ∀ b : UInt8, (monus b Ascii.lastControl == 0) = Ascii.isControl b :=
  forall_byte (by decide)

/-- In a whole block the marked bytes are those that are no blanks: the mask is turned over in all
of its sixteen bits. -/
theorem notBlank_eq {block : Bytes} (h : block.length = width) :
    notBlank block = mask (fun b => !Ascii.isBlank b) block := by
  rw [notBlank, mask_or, mask_or, mask_or, full_xor_mask _ h]
  simp only [Ascii.isBlank, Bool.or_assoc]

/-- The marked bytes are those that have to be escaped. -/
theorem mustEscape_eq (block : Bytes) : mustEscape block = mask Ascii.mustEscape block := by
  rw [mustEscape, control, mask_or, mask_or]
  simp only [monus_lastControl]
  rfl

/-- The marked bytes are those that are not plain. -/
theorem notPlain_eq (block : Bytes) :
    notPlain block = mask (fun b => !Ascii.isPlain b) block := by
  rw [notPlain, mustEscape_eq, mask_or]
  simp only [Ascii.mustEscape, Ascii.isPlain, Bool.not_not]

end Block

namespace Slice

/-! ### What is left behind an index -/

theorem rest_add (s : Slice) (i n : Nat) : s.rest (i + n) = (s.rest i).drop n := by
  simp [rest]

theorem rest_zero (s : Slice) : s.rest 0 = s.bytes := rfl

theorem length_rest (s : Slice) (i : Nat) : (s.rest i).length = s.size - i := by
  simp [rest]

/-- The byte at an index is the first one from there on. -/
theorem get?_eq_head? (s : Slice) (i : Nat) : s.get? i = (s.rest i).head? := by
  rw [get?_eq_getElem?, rest, List.head?_drop]

theorem ahead_eq_take (s : Slice) (i n : Nat) : s.ahead i n = (s.rest i).take n :=
  bytes_sub s i n

/-- What stands in front of a known beginning is left behind it. -/
theorem rest_add_length {s : Slice} {i : Nat} {front back : Bytes}
    (h : s.rest i = front ++ back) : s.rest (i + front.length) = back := by
  rw [rest_add, h, List.drop_left]

/-- Between where a stretch begins and where it ends stands the stretch. -/
theorem bytes_between {s : Slice} {i : Nat} {front back : Bytes}
    (h : s.rest i = front ++ back) : (s.between i (i + front.length)).bytes = front := by
  have hn : i + front.length - i = front.length := by omega
  rw [between, bytes_sub, ← rest, h, hn, List.take_left]

/-- A part of a slice is one of its stretches. -/
theorem covers_between (s : Slice) (i j : Nat) : s.covers (s.between i j) = true := by
  have hend : s.start + min i s.size + min (j - i) (s.size - i) ≤ s.start + s.size := by omega
  simp [covers, between, sub, hend]

/-! ### Searching -/

/-- **The loop over single bytes stops at the first one that passes the test**, or at the end. -/
theorem seek_eq (s : Slice) (test : UInt8 → Bool) (remaining i : Nat)
    (h : s.size - i ≤ remaining) : s.seek test remaining i = i + (s.rest i).findIdx test := by
  induction remaining generalizing i with
  | zero =>
      have : s.rest i = [] := by
        rw [← List.length_eq_zero_iff, length_rest]
        omega
      rw [seek, this]
      rfl
  | succ n ih =>
      rw [seek]
      cases hb : s.get? i with
      | none => rw [rest_eq_nil_of_get? hb]; rfl
      | some b =>
          dsimp only
          rw [rest_eq_cons_of_get? hb, List.findIdx_cons, ih (i + 1) (by omega)]
          cases ht : test b
          · simp only [Bool.false_eq_true, ↓reduceIte, cond_false]
            omega
          · rfl

/-- **So does the loop over blocks**, when the marks of a whole block are those of the test. -/
theorem seekBlocks_eq (s : Slice) {marks : Bytes → Nat} {test : UInt8 → Bool}
    (hm : ∀ block : Bytes, block.length = Block.width → marks block = Block.mask test block)
    (blocks i : Nat) (h : Block.width * blocks ≤ s.size - i) :
    s.seekBlocks marks test blocks i = i + (s.rest i).findIdx test := by
  induction blocks generalizing i with
  | zero => exact seek_eq s test _ i (Nat.le_refl _)
  | succ n ih =>
      have hw : (s.ahead i Block.width).length = Block.width := by
        rw [ahead_eq_take, List.length_take, length_rest]
        rw [Block.width] at h ⊢
        omega
      -- a block in front of what is left
      have hr : s.rest i = s.ahead i Block.width ++ s.rest (i + Block.width) := by
        rw [ahead_eq_take, rest_add, List.take_append_drop]
      rw [seekBlocks, hm _ hw, hr, List.findIdx_append]
      split
      · next hz =>
          have hf := (Block.mask_eq_zero_iff test _).mp hz
          rw [ih _ (by rw [Nat.mul_succ] at h; omega), hf, hw]
          simp only [Nat.lt_irrefl, ↓reduceIte]
          omega
      · next hz =>
          have hl := Block.lowest_mask test (s.ahead i Block.width)
          have hf : (s.ahead i Block.width).findIdx test < (s.ahead i Block.width).length :=
            Nat.lt_of_le_of_ne List.findIdx_le_length
              fun h => hz ((Block.mask_eq_zero_iff test _).mpr h)
          rw [hw] at hl
          rw [hl, if_pos hf]

/-- **A scan is a search.**  It stops at the first byte from `i` on that passes the test, and at
the end of the slice when there is none. -/
theorem scan_eq (s : Slice) {marks : Bytes → Nat} {test : UInt8 → Bool}
    (hm : ∀ block : Bytes, block.length = Block.width → marks block = Block.mask test block)
    (i : Nat) : s.scan marks test i = i + (s.rest i).findIdx test :=
  seekBlocks_eq s hm _ i (Nat.mul_div_le _ _)

/-- Blanks are skipped up to the first byte that is none. -/
theorem skipBlank_eq (s : Slice) (i : Nat) :
    s.skipBlank i = i + ((s.rest i).takeWhile Ascii.isBlank).length := by
  rw [skipBlank, scan_eq s (fun _ h => Block.notBlank_eq h), List.takeWhile_eq_take_findIdx_not,
    List.length_take, Nat.min_eq_left List.findIdx_le_length]

/-- Plain bytes are skipped up to the first one that is not. -/
theorem skipPlain_eq (s : Slice) (i : Nat) :
    s.skipPlain i = i + ((s.rest i).takeWhile Ascii.isPlain).length := by
  rw [skipPlain, scan_eq s (fun b _ => Block.notPlain_eq b), List.takeWhile_eq_take_findIdx_not,
    List.length_take, Nat.min_eq_left List.findIdx_le_length]

/-- The first byte to be escaped is found. -/
theorem firstEscape_eq (s : Slice) : s.firstEscape = s.bytes.findIdx Ascii.mustEscape := by
  rw [firstEscape, scan_eq s (fun b _ => Block.mustEscape_eq b), rest_zero, Nat.zero_add]

end Slice

end JsonTree
