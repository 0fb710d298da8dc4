import JsonTree.Proofs.Texts
import JsonTree.Proofs.Flaw
import JsonTree.Proofs.Rendered

/-!
# Rereading — the strings of a written value

A string that has been written is read as its bytes, and as a view exactly when none of them had to
be escaped (`Text.asRead`).  So when a written value is read again, in either layout, how its
strings and keys are held depends on their bytes alone, and not on how those of the value were held.

* `readString_quoted`: one string, whatever follows it.
* `texts_of_parse`: the strings and keys of a value that is read where another has been written.
* `Census.foldl_count`: a census adds up what it goes over.
* `written_strings_are_reread`: all of it, for both layouts.
-/

namespace JsonTree

open Ascii Bytes Value

theorem mustEscape_eq_false_iff (b : UInt8) : mustEscape b = false ↔
    b ≠ quote ∧ b ≠ backslash ∧ 0x1F < b := by
  rw [← Bool.not_eq_true, mustEscape_iff, not_or, not_or, UInt8.not_le]

open Reader in
/-- **A string that has been written is read as its bytes**, up to the quote behind them, and as a
view exactly when no byte had to be escaped. -/
theorem readString_quoted {s : Session Reader} {bs tail : Bytes} (hs : s.fault = none)
    (hformed : Utf8.WellFormed bs) (hr : rest s = Write.quoted bs ++ tail) :
    ∃ t, readString s = (t, moveTo s (s.state.position + (Write.quoted bs).length)) ∧
      t.characters.bytes = bs ∧
      (t.borrowed = true ↔ ∀ b ∈ bs, b ≠ quote ∧ b ≠ backslash ∧ 0x1F < b) := by
  obtain ⟨l, hl, hbytes⟩ := Write.exists_literal hformed
  rw [← hl] at hr
  have hsame : Write.quoted (Text.own bs).bytes ++ [] = l.text ++ [] :=
    congrArg (· ++ []) hl.symm
  obtain ⟨-, -, htext, -⟩ := Write.eq_of_literal hsame
  refine ⟨stringToken s l, ?_, (bytes_stringToken hr).trans hbytes, ?_⟩
  · rw [← hl]
    exact readString_of_literal hs hr
  · have hborrowed : (!l.hasEscape) = !bs.any mustEscape := congrArg Text.borrowed htext
    change (!l.hasEscape) = true ↔ _
    rw [hborrowed, Bool.not_eq_true', List.any_eq_false]
    exact forall_congr' fun b => forall_congr' fun _ => by
      rw [Bool.not_eq_true, mustEscape_eq_false_iff]

/-! ### Values -/

variable {layout : Layout}

/-- **What is read where a value has been written** is fit to be written and read; the strings and
keys are held as they are read. -/
theorem texts_of_parse {v w : Value} {options : ReadOptions} {source : Slice}
    (hkeyed : v.Everywhere Keyed) (hsource : source.bytes = v.render layout 0)
    (hparse : parse source options = ⟨w, none⟩) :
    v.Everywhere (Fit options.allowNonFinite) ∧ v.depth ≤ options.maxDepth ∧
      w.texts = v.texts.map Text.asRead := by
  obtain ⟨d, back, hbytes, hends, -, -, hwithin, rfl⟩ := parse_eq_ok_iff.mp hparse
  have htext : Blanks.none.text ++ v.render layout 0 =
      d.before.text ++ (d.root.text ++ (d.after.text ++ back)) := by
    rw [← hsource, hbytes, Derivation.text]
    simp [Blanks.none]
  obtain ⟨-, hroot⟩ := Blanks.eq_of_append htext (v.beginsValue_render 0).stops
    (d.root.beginsValue.append _).stops
  have hread := recovered hkeyed ((List.append_nil _).trans hroot) hends (stops_nil _)
    hwithin.numbers
  exact ⟨hread.fit, hread.depth ▸ hwithin.depth, hread.texts⟩

/-! ### The census -/

/-- How many strings and keys have been counted. -/
def Census.total (c : Census) : Nat :=
  c.borrowed + c.owned

/-- How many bytes they have. -/
def Census.totalBytes (c : Census) : Nat :=
  c.borrowedBytes + c.ownedBytes

/-- **A census adds up what it goes over**, however it is held. -/
theorem Census.foldl_count (ts : List Text) (c : Census) :
    (ts.foldl count c).total = c.total + ts.length ∧
      (ts.foldl count c).totalBytes = c.totalBytes + (ts.map Text.size).sum := by
  induction ts generalizing c with
  | nil => exact ⟨rfl, rfl⟩
  | cons t ts ih =>
      have hcount : (c.count t).total = c.total + 1 ∧
          (c.count t).totalBytes = c.totalBytes + t.size := by
        rw [count]
        split <;> simp only [total, totalBytes] <;> omega
      rw [List.foldl_cons, (ih _).1, (ih _).2, hcount.1, hcount.2, List.length_cons, List.map_cons,
        List.sum_cons]
      omega

theorem census_of_asRead {v w : Value} (h : w.texts = v.texts.map Text.asRead) :
    w.census.total = v.census.total ∧ w.census.totalBytes = v.census.totalBytes := by
  have hsize : (v.texts.map Text.asRead).map Text.size = v.texts.map Text.size := by
    rw [List.map_map]
    rfl
  have hw := Census.foldl_count w.texts {}
  have hv := Census.foldl_count v.texts {}
  rw [← census_eq, h] at hw
  rw [← census_eq] at hv
  rw [hw.1, hw.2, hv.1, hv.2, List.length_map, hsize]
  exact ⟨rfl, rfl⟩

/-! ### Both layouts -/

/-- What is read, with the options given, wherever a value has been written in either layout: its
strings and keys as they are read, and a census that is the same for both. -/
def Value.ReadAlike (v : Value) (allow : Bool) (reading : ReadOptions) (c : Census) : Prop :=
  ∀ layout, ∃ text, v.write ⟨layout, allow⟩ = .ok text ∧
    ∀ source : Slice, source.bytes = text → ∃ w, parse source reading = ⟨w, none⟩ ∧
      w.texts = v.texts.map Text.asRead ∧ w.census = c

open Reader in
/-- **Written strings are read again as they are.**  Well formed bytes are written so that they are
read to the byte, up to the quote behind them, whatever follows; they are read as a view exactly
when there is no quote, no backslash and no control byte among them.

So let a value that was built be read again from what is written in one of the layouts.  Then it is
read again from both, with the same census, as many strings and keys with as many bytes as the value
has, and each is a view or not by its own bytes, however the value held it. -/
theorem written_strings_are_reread :
    (∀ (s : Session Reader) (bs tail : Bytes), s.fault = none → Utf8.WellFormed bs →
      rest s = Write.quoted bs ++ tail →
      ∃ t, readString s = (t, moveTo s (s.state.position + (Write.quoted bs).length)) ∧
        t.characters.bytes = bs ∧
        (t.borrowed = true ↔ ∀ b ∈ bs, b ≠ quote ∧ b ≠ backslash ∧ 0x1F < b)) ∧
    ∀ (v : Value) (allow : Bool) (reading : ReadOptions), Built v →
      (∃ layout text source w, v.write ⟨layout, allow⟩ = .ok text ∧ Slice.bytes source = text ∧
        parse source reading = ⟨w, none⟩) →
      ∃ c : Census, c.total = v.census.total ∧ c.totalBytes = v.census.totalBytes ∧
        v.ReadAlike allow reading c := by
  refine ⟨fun s bs tail hs hformed hr => readString_quoted hs hformed hr, ?_⟩
  rintro v allow reading hbuilt ⟨layout, text, source, w, hwrite, rfl, hparse⟩
  have hkeyed : v.Everywhere Keyed := built_iff.mp hbuilt
  obtain ⟨hallowed, hsource⟩ := write_eq_ok_iff.mp hwrite
  obtain ⟨hfit, hdepth, htexts⟩ := texts_of_parse hkeyed hsource hparse
  obtain ⟨htotal, hbytes⟩ := census_of_asRead htexts
  refine ⟨w.census, htotal, hbytes, fun layout' => ⟨_, write_eq_ok_iff.mpr ⟨hallowed, rfl⟩,
    fun source' hsource' => ?_⟩⟩
  obtain ⟨w', hparse', -⟩ := parse_render hfit hdepth hsource'
  obtain ⟨-, -, htexts'⟩ := texts_of_parse hkeyed hsource' hparse'
  refine ⟨w', hparse', htexts', ?_⟩
  rw [census_eq, census_eq, htexts', htexts]

/-- A view of a quote, and a letter of its own. -/
def quoteAndLetter : Value :=
  .array [.string (.borrow [0x22]), .string (.own [0x63])]

open Reader in
theorem written_strings_are_reread_quoteAndLetter :
    (∃ t, readString (start (.ofBytes 0 (Write.quoted [0x22, 0] ++ [0x5D])) {}) =
        (t, moveTo (start (.ofBytes 0 (Write.quoted [0x22, 0] ++ [0x5D])) {}) 10) ∧
      t.characters.bytes = [0x22, 0] ∧ t.borrowed ≠ true) ∧
    ∃ c : Census, c.total = 2 ∧ c.totalBytes = 2 ∧ quoteAndLetter.ReadAlike false {} c := by
  have hascii : ∀ b : UInt8, b ≤ 0x7F → Utf8.WellFormed [b] := fun b hb => .cons (.one hb) .nil
  constructor
  · have hformed : Utf8.WellFormed [0x22, 0] := .cons (.one (by decide)) (hascii 0 (by decide))
    obtain ⟨t, hread, hbytes, hborrowed⟩ := written_strings_are_reread.1
      (start (.ofBytes 0 (Write.quoted [0x22, 0] ++ [0x5D])) {}) [0x22, 0] [0x5D] rfl hformed rfl
    refine ⟨t, hread, hbytes, fun hview => ?_⟩
    exact (hborrowed.mp hview 0x22 (by decide)).1 rfl
  · have hwrite : quoteAndLetter.write ⟨.compact, false⟩ =
        .ok (Bytes.ofString "[\"\\\"\",\"c\"]") :=
      write_eq_ok_iff.mpr ⟨by simp [quoteAndLetter, Allowed], by decide⟩
    have hparse : parse (.ofBytes 0 (Bytes.ofString "[\"\\\"\",\"c\"]")) {} =
        ⟨.array [.string (.own [0x22]), .string (.borrow [0x63])], none⟩ := rfl
    refine written_strings_are_reread.2 quoteAndLetter false {} ?_
      ⟨.compact, _, _, _, hwrite, Slice.bytes_ofBytes 0 _, hparse⟩
    exact built_iff.mpr (by simp [quoteAndLetter, Keyed])

end JsonTree
