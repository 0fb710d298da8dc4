import JsonTree.Proofs.Description

/-!
# Failure — what is told of a document that cannot be read

Reading a document or failing gives up with the error that reading it records, together with the
whole document.  The message is a text that ends at its first zero byte, and what is shown of the
document may hold one.

* `zero_mem_describe_iff`: a description holds a zero byte exactly when what is shown does.
* `failure_is_told_up_to_zero`: the message is complete exactly when nothing shown is a zero byte.
* `zero_cuts_message`: a document whose message is cut in front of the caret.
-/

namespace JsonTree

open Ascii Bytes

/-! ### Zero bytes -/

namespace Bytes

theorem ne_zero_of_not_mem {bs : Bytes} (h : (0 : UInt8) ∉ bs) : ∀ b ∈ bs, (b != 0) = true :=
  fun _ hb => bne_iff_ne.mpr fun hzero => h (hzero ▸ hb)

theorem untilZero_eq_self_iff {bs : Bytes} : bs.untilZero = bs ↔ (0 : UInt8) ∉ bs := by
  refine ⟨fun h hzero => ?_, fun h => ?_⟩
  · rw [← h] at hzero
    exact absurd (of_mem_takeWhile 0 hzero) (by decide)
  · simpa [untilZero] using takeWhile_run (ne_zero_of_not_mem h) (stops_nil _)

/-- What stands in front of all zero bytes is kept. -/
theorem prefix_untilZero {front back : Bytes} (h : (0 : UInt8) ∉ front) :
    front <+: (front ++ back).untilZero := by
  rw [untilZero, List.takeWhile_append_of_pos (ne_zero_of_not_mem h)]
  exact List.prefix_append _ _

end Bytes

/-- No other byte is shown as a zero byte. -/
theorem inOneColumn_eq_zero_iff : ∀ b : UInt8, inOneColumn b = 0 ↔ b = 0 :=
  forall_byte (by decide)

/-- What is shown are bytes of the text. -/
theorem LineAround.mem_of_mem_shown {source : Bytes} {offset : Nat} (a : LineAround source offset)
    {b : UInt8} (h : b ∈ a.ahead ++ a.behind) : b ∈ source := by
  refine (congrArg (b ∈ ·) a.text).mpr ?_
  simp only [List.mem_append] at h ⊢
  tauto

namespace Error

/-- A description begins with the first line, whatever the document. -/
theorem header_prefix_describe (e : Error) (source : Bytes) : e.header <+: e.describe source := by
  rw [describe]
  split
  · exact List.prefix_rfl
  · simp only [List.append_assoc]
    exact List.prefix_append _ _

/-- **A description holds a zero byte exactly when what is shown does.** -/
theorem zero_mem_describe_iff {e : Error} {source : Bytes}
    (a : LineAround source (min e.offset source.length)) :
    (0 : UInt8) ∈ e.describe source ↔ (0 : UInt8) ∈ a.ahead ++ a.behind := by
  have hshown : (0 : UInt8) ∈ a.shown ↔ (0 : UInt8) ∈ a.ahead ++ a.behind := by
    simp only [LineAround.shown, List.mem_map, inOneColumn_eq_zero_iff, exists_eq_right]
  have hheader : (0 : UInt8) ∉ e.header := e.not_mem_header (by decide)
  by_cases hsource : source = []
  · -- without a document there is the first line alone, and no line around the offset
    have hdescribe : e.describe source = e.header := if_pos (by simp [hsource])
    have hempty : (0 : UInt8) ∉ a.ahead ++ a.behind := by
      intro h
      have hmem := a.mem_of_mem_shown h
      rw [hsource] at hmem
      cases hmem
    rw [hdescribe]
    exact iff_of_false hheader hempty
  · have hmarker : (0 : UInt8) ∉ a.marker := fun h => absurd (a.eq_of_mem_marker h) (by decide)
    have hnewline : (0 : UInt8) ≠ newline := by decide
    have hspace : (0 : UInt8) ≠ space := by decide
    rw [describe_eq hsource a, ← hshown]
    simp [descriptionLines, List.intercalate, hheader, hmarker, hnewline, hspace]

end Error

/-! ### The message -/

/-- **A failure is told up to a zero byte.**  Where a document cannot be read, reading it or failing
gives up with the error on record and the whole document.  The message is the name of the tool and
the description of the error, up to the first zero byte.  The first line is always told; the message
is complete, with the caret below the offset, exactly when no zero byte is shown of the line. -/
theorem failure_is_told_up_to_zero {source : Slice} {options : ReadOptions} {e : Error}
    (h : (parse source options).fault = some e) :
    ∃ f : ParseFailure, parseStrict source options = .error f ∧ f.error = e ∧
      f.source = source.bytes ∧
      f.message = (Bytes.ofString "cowjson: " ++ e.describe source.bytes).takeWhile (· != 0) ∧
      Bytes.ofString "cowjson: " ++ e.header <+: f.message ∧
      Nonempty (LineAround source.bytes e.offset) ∧
      ∀ a : LineAround source.bytes e.offset,
        f.message = Bytes.ofString "cowjson: " ++ e.describe source.bytes ↔
          (0 : UInt8) ∉ a.ahead ++ a.behind := by
  have hinside : e.offset ≤ source.bytes.length := by
    rw [source.length_bytes]
    exact (wellPlaced_of_parse h).inside
  have hname : (0 : UInt8) ∉ Bytes.ofString "cowjson: " := by decide
  refine ⟨⟨e, source.bytes⟩, ?_, rfl, rfl, rfl, ?_, nonempty_lineAround hinside, fun a => ?_⟩
  · rw [parseStrict, h]
  · obtain ⟨rest, hrest⟩ := e.header_prefix_describe source.bytes
    have hzero : (0 : UInt8) ∉ Bytes.ofString "cowjson: " ++ e.header := by
      rw [List.mem_append, not_or]
      exact ⟨hname, e.not_mem_header (by decide)⟩
    rw [ParseFailure.message, ParseFailure.fullMessage, ← hrest, ← List.append_assoc]
    exact Bytes.prefix_untilZero hzero
  · have hdescribe := @Error.zero_mem_describe_iff e source.bytes
    rw [Nat.min_eq_left hinside] at hdescribe
    have hcomplete := @Bytes.untilZero_eq_self_iff
      (Bytes.ofString "cowjson: " ++ e.describe source.bytes)
    rw [List.mem_append, hdescribe a, or_iff_right hname] at hcomplete
    exact hcomplete

/-- A zero byte on another line than the error. -/
theorem failure_is_told_up_to_zero_nextLine :
    (parse (.ofBytes 0 [0x78, newline, 0]) {}).fault = some ⟨.invalidValue, 0, 1, 1⟩ ∧
    ∃ f : ParseFailure, parseStrict (.ofBytes 0 [0x78, newline, 0]) {} = .error f ∧
      f.source = [0x78, newline, 0] ∧
      f.message = Bytes.ofString "cowjson: invalid value at line 1, column 1 (offset 0)\n  x\n  ^" := by
  have hfault : (parse (.ofBytes 0 [0x78, newline, 0]) {}).fault =
      some ⟨.invalidValue, 0, 1, 1⟩ := rfl
  obtain ⟨f, hf, -, hsource, -, -, -, hmessage⟩ := failure_is_told_up_to_zero hfault
  refine ⟨hfault, f, hf, hsource, ?_⟩
  let line : LineAround (Slice.ofBytes 0 [0x78, newline, 0]).bytes 0 :=
    { front := [], skipped := [], ahead := [], behind := [0x78], dropped := [], back := [newline, 0]
      text := by decide, place := by decide, opened := by decide, closed := by decide
      unbroken := by decide, ahead_le := by decide, behind_le := by decide
      skipped_or := by decide, dropped_or := by decide }
  rw [(hmessage line).mpr (by decide)]
  decide

/-- **A zero byte cuts the message** of a document of no other byte: neither the line nor the caret
is told. -/
theorem zero_cuts_message : ∃ f : ParseFailure, parseStrict (.ofBytes 0 [0]) {} = .error f ∧
    f.error = ⟨.invalidValue, 0, 1, 1⟩ ∧
    f.message = Bytes.ofString "cowjson: invalid value at line 1, column 1 (offset 0)\n  " ∧
    f.message ≠ Bytes.ofString "cowjson: " ++ f.error.describe f.source :=
  ⟨⟨⟨.invalidValue, 0, 1, 1⟩, [0]⟩, rfl, rfl, by decide, by decide⟩

end JsonTree
