import JsonTree.Proofs.Pattern
import JsonTree.Proofs.Written

/-!
# Texts of floating point numbers — numbers of the grammar that are read back bit by bit

What is written for a finite number matches the pattern of numbers and has a point or a power of
ten, so that no integer is read where it stands, and reading a floating point number gives the very
number that was written: the sign of zero, subnormal numbers and the largest ones are all kept
(`Reads`).  The words for what is not finite are read back where they are allowed; only the bits of
what is no number are lost.

* `reads_floatingText`: what holds of the text of a finite number.
* `readInteger_of_word`, `readFloat_of_word`: how a word is read.
* `written_floats_are_reread`: both, from what a writer puts behind any output.
-/

namespace JsonTree

open Ascii Bytes Reader

/-! ### Finite numbers -/

/-- The text is that of a floating point number: a number that is told from integers by its looks,
and that is read as exactly this one wherever it stands, whole and by no other name. -/
structure Binary64.Reads (x : Binary64) (text : Bytes) : Prop where
  number : text ∈ Pattern.number
  marked : ∃ b ∈ text, b = point ∨ isMark b = true
  stands : ∀ back, Stops isDigit back → Stops isMark back → Stands text back
  integer : ∀ (w : Blanks) (s : Session Reader) (back : Bytes),
    rest s = w.text ++ (text ++ back) → Stands text back →
      readInteger s = (.notInteger, skip s w.text.length)
  floating : ∀ (w : Blanks) (s : Session Reader) (back : Bytes),
    rest s = w.text ++ (text ++ back) → Stands text back →
      readFloat s = (x, skip s (w.text.length + text.length))

/-- **The text of a finite number is read back as the number.** -/
theorem Write.reads_floatingText {x : Binary64} (hx : x.isFinite = true) :
    x.Reads (floatingText x) := by
  obtain ⟨n, htext, hwithin, hvalue⟩ := exists_numberLiteral_floating hx
  -- the number has the value of a floating point number, so it does not look like an integer
  have hi : n.numeral.isInteger = false := by
    by_contra hi
    rw [NumberLiteral.value, if_pos (Bool.eq_true_of_not_eq_false hi)] at hvalue
    cases hvalue
  have hne : ¬ n.numeral.isInteger = true := by simp [hi]
  rw [NumberLiteral.value, if_neg hne] at hvalue
  have hnearest : n.nearest = x := Value.floating.inj hvalue
  rw [← htext]
  refine ⟨Pattern.mem_number_iff.mpr ⟨n, rfl⟩, ?_, fun back hdigit hmark => ?_,
    fun w s back hr hstands => ?_, fun w s back hr hstands => ?_⟩
  · have hfloating := Decimal.Style.isFloating_text n.proper
    rw [hi, Bool.not_false, Decimal.Style.isFloating, List.any_eq_true] at hfloating
    obtain ⟨b, hb, hmarked⟩ := hfloating
    rw [Bool.or_assoc, Bool.or_eq_true, beq_iff_eq] at hmarked
    exact ⟨b, hb, hmarked⟩
  · refine stands_text_iff.mpr ⟨hdigit, fun hf he => ?_, fun _ => hmark⟩
    rw [Numeral.isInteger, hf, he] at hi
    cases hi
  · rw [readInteger_of_number ⟨back, hr, hstands⟩, if_neg hne]
  · rw [readFloat_of_number ⟨back, hr, hstands⟩, hnearest, if_pos hx]

/-! ### Words -/

namespace Reader

variable {s : Session Reader} {w : Blanks} {word : NonFinite} {back : Bytes}

/-- The blanks before a word for a float are gone over. -/
theorem skipBlank_of_word (h : rest s = w.text ++ (word.text ++ back)) :
    skipBlank s = skip s w.text.length := by
  have hword := rest_skip h
  have hstops := (atNonFinite_of_word hword).2
  rw [hword] at hstops
  exact skipBlank_eq w h hstops

/-- A word for a float is no integer, and stays where it is. -/
theorem readInteger_of_word (hallow : s.state.options.allowNonFinite = true)
    (h : rest s = w.text ++ (word.text ++ back)) :
    readInteger s = (.notInteger, skip s w.text.length) := by
  rw [← readInteger_skipBlank, skipBlank_of_word h]
  exact readInteger_of_wordHere hallow (rest_skip h)

/-- A word for a float is read as the float. -/
theorem readFloat_of_word (hallow : s.state.options.allowNonFinite = true)
    (h : rest s = w.text ++ (word.text ++ back)) :
    readFloat s = (word.number, skip s (w.text.length + word.text.length)) := by
  rw [← readFloat_skipBlank, skipBlank_of_word h, ← skip_skip]
  exact readFloat_of_wordHere hallow (rest_skip h)

end Reader

/-! ### Written and read back -/

/-- **Written floating point numbers are read back.**  For a finite number a text is put behind the
output that is read as exactly this number and as no integer.  For any other, where that is allowed,
a word is put there that, where it is allowed, is read whole: as the same infinity, or as no number
if it was none. -/
theorem written_floats_are_reread :
    (∀ x : Binary64, x.isFinite = true → ∃ text,
      (∀ allow out, Write.floating allow x out = .ok (out.append text)) ∧ x.Reads text) ∧
    ∀ x : Binary64, x.isFinite = false → ∃ text,
      (∀ out, Write.floating true x out = .ok (out.append text)) ∧
      ∀ (w : Blanks) (s : Session Reader) (back : Bytes),
        s.state.options.allowNonFinite = true → rest s = w.text ++ (text ++ back) →
        readInteger s = (.notInteger, skip s w.text.length) ∧
        ∃ y, readFloat s = (y, skip s (w.text.length + text.length)) ∧
          (x.isNaN = false → y = x) ∧ (x.isNaN = true → y.isNaN = true) := by
  constructor
  · intro x hx
    refine ⟨Write.floatingText x, fun allow out => ?_, Write.reads_floatingText hx⟩
    rw [Write.floating_eq, Write.written_of (.inl hx)]
  · intro x hx
    obtain ⟨word, htext, hmeans⟩ := Write.exists_word hx
    refine ⟨Write.floatingText x, fun out => ?_, fun w s back hallow hr => ?_⟩
    · rw [Write.floating_eq, Write.written_of (.inr rfl)]
    rw [← htext] at hr ⊢
    refine ⟨readInteger_of_word hallow hr, word.number, readFloat_of_word hallow hr, ?_⟩
    rcases hmeans with rfl | ⟨hnan, hnumber⟩
    · exact ⟨fun _ => rfl, id⟩
    · exact ⟨fun hno => absurd (hnan.symm.trans hno) (by decide), fun _ => hnumber⟩

theorem written_floats_are_reread_signs :
    (∃ text, Write.floating false (.ofMagnitude true 0) .empty = .ok (Output.empty.append text) ∧
      readFloat (start (.ofBytes 0 text) {}) =
        (.ofMagnitude true 0, skip (start (.ofBytes 0 text) {}) text.length)) ∧
    ∃ text, Write.floating true Binary64.negativeInfinity .empty = .ok (Output.empty.append text) ∧
      readFloat (start (.ofBytes 0 text) ⟨0, true, true⟩) =
        (Binary64.negativeInfinity, skip (start (.ofBytes 0 text) ⟨0, true, true⟩) text.length) := by
  have hrest : ∀ text options, rest (start (.ofBytes 0 text) options) =
      Blanks.none.text ++ (text ++ []) := by
    intro text options
    rw [List.append_nil]
    exact (rest_start _ options).trans (Slice.bytes_ofBytes 0 text)
  have hblanks : ∀ text : Bytes, Blanks.none.text.length + text.length = text.length := fun _ =>
    Nat.zero_add _
  obtain ⟨hfinite, hnot⟩ := written_floats_are_reread
  constructor
  · obtain ⟨text, hwritten, hreads⟩ := hfinite (.ofMagnitude true 0) (by decide)
    have hread := hreads.floating _ _ _ (hrest text {}) (hreads.stands [] (stops_nil _) (stops_nil _))
    rw [hblanks] at hread
    exact ⟨text, hwritten false _, hread⟩
  · obtain ⟨text, hwritten, hreads⟩ := hnot Binary64.negativeInfinity (by decide)
    obtain ⟨-, y, hread, hsame, -⟩ := hreads _ _ _ rfl (hrest text ⟨0, true, true⟩)
    rw [hblanks, hsame (by decide)] at hread
    exact ⟨text, hwritten _, hread⟩

end JsonTree
