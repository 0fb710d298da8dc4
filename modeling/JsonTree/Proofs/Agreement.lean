import JsonTree.Proofs.Relocation
import JsonTree.Proofs.Texts

/-!
# Agreement — every way in reads alike

There are several ways to have a document read: as a value with views of the text, as a value of its
own, as a value or a failure, or as a document that keeps the text, which is taken over, or copied
from a buffer, or copied up to its first zero byte.  All of them go through the builder and then
check the end, each for itself.

* `Outcome.document_eq`: a document goes through the same outcome as a value alone.
* `entry_points_agree`: all of them give one value or one error, and with an error none gives a
  value.
-/

namespace JsonTree

open Value

/-- The error, or else the answer. -/
def Fault.orAnswer {α : Type} (fault : Fault) (bs : Bytes) (answer : α) : Except ParseFailure α :=
  match fault with
  | some error => .error ⟨error, bs⟩
  | none => .ok answer

/-- Wherever the bytes lie, each way of reading them comes to the value or the error, with the value
put as it puts it; a document keeps the whole text. -/
structure EachReads (bs : Bytes) (options : ReadOptions) (v : Value) (fault : Fault) : Prop where
  parse : ∀ source : Slice, source.bytes = bs → parse source options = ⟨v, fault⟩
  parseOwned : ∀ source : Slice, source.bytes = bs →
    parseOwned source options = ⟨v.detached, fault⟩
  parseStrict : ∀ source : Slice, source.bytes = bs →
    parseStrict source options = fault.orAnswer bs v
  document : ∀ text : ByteArray, text.data.toList = bs →
    Document.parse text options = (⟨text, v⟩, fault) ∧
      Document.strict (Document.parse text options) = fault.orAnswer bs ⟨text, v⟩
  view : ∀ view : Slice, view.bytes = bs →
    Document.parseView view options = (⟨⟨bs.toArray⟩, v⟩, fault) ∧
      Document.strict (Document.parseView view options) = fault.orAnswer bs ⟨⟨bs.toArray⟩, v⟩
  terminated : ∀ text : Bytes, text.untilZero = bs →
    Document.parseTerminated text options = (⟨⟨bs.toArray⟩, v⟩, fault) ∧
      Document.strict (Document.parseTerminated text options) =
        fault.orAnswer bs ⟨⟨bs.toArray⟩, v⟩

/-! ### Documents -/

theorem Slice.bytes_ofMemory (buffer : Nat) (memory : ByteArray) :
    (Slice.ofMemory buffer memory).bytes = memory.data.toList :=
  Slice.bytes_ofBytes buffer memory.data.toList

open Reader in
/-- **A document comes out like its text.** -/
theorem Outcome.document_eq {text : ByteArray} {options : ReadOptions} {v : Value} {fault : Fault}
    (h : Outcome (.ofMemory 0 text) options v fault) :
    Document.parse text options = (⟨text, v⟩, fault) := by
  cases h with
  | read hbuild hs hfinish hs' =>
      simp [Document.parse, Document.source, Document.ofText, hbuild, Session.failed, hs, hfinish,
        hs']
  | unbuilt hbuild hs =>
      simp [Document.parse, Document.source, Document.ofText, hbuild, Session.failed, hs]
  | unfinished hbuild hs hfinish hs' =>
      simp [Document.parse, Document.source, Document.ofText, hbuild, Session.failed, hs, hfinish,
        hs']

/-- What is thrown for a document is its error, with the whole text. -/
theorem Document.strict_eq (text : ByteArray) (v : Value) (fault : Fault) :
    Document.strict (⟨text, v⟩, fault) = fault.orAnswer text.data.toList ⟨text, v⟩ := by
  cases fault with
  | none => rfl
  | some e => rw [Document.strict, Fault.orAnswer, Document.source, Slice.bytes_ofMemory]

/-! ### All ways in -/

section

variable {source : Slice} {options : ReadOptions} {v : Value} {fault : Fault}

/-- Where the bytes lie does not matter to the outcome, only what they are. -/
theorem Outcome.relocated (h : Outcome source options v fault) {source' : Slice}
    (hbytes : source'.bytes = source.bytes) : Outcome source' options v fault := by
  obtain ⟨v', fault', h'⟩ := exists_outcome source' options
  have hsame := parse_eq_of_bytes_eq hbytes options
  rw [h.parse_eq, h'.parse_eq] at hsame
  obtain ⟨rfl, rfl⟩ := Parsed.mk.inj hsame
  exact h'

/-- The owning entry point answers the value with its views copied, and the same fault. -/
theorem Outcome.parseOwned_eq (h : Outcome source options v fault) :
    parseOwned source options = ⟨v.detached, fault⟩ := by
  cases fault with
  | none =>
      have hkeyed := (fit_of_parse h.parse_eq).1.mono fun u hu => hu.keyed
      rw [parseOwned, h.parse_eq]
      exact congrArg (Parsed.mk · none) (toOwned_eq_detached hkeyed)
  | some e =>
      obtain rfl := h.eq_null
      rw [parseOwned, h.parse_eq]
      rfl

/-- The strict entry point answers the value when there is no fault, and throws the fault otherwise.
-/
theorem Outcome.parseStrict_eq (h : Outcome source options v fault) :
    parseStrict source options = fault.orAnswer source.bytes v := by
  rw [parseStrict, h.parse_eq]
  cases fault with
  | none => rfl
  | some e => rfl

end

/-- Once the outcome over the bytes is known, every entry point is known. -/
theorem eachReads {source : Slice} {options : ReadOptions} {v : Value} {fault : Fault}
    (h : Outcome source options v fault) : EachReads source.bytes options v fault := by
  have hdocument : ∀ text : ByteArray, text.data.toList = source.bytes →
      Document.parse text options = (⟨text, v⟩, fault) ∧
        Document.strict (Document.parse text options) = fault.orAnswer source.bytes ⟨text, v⟩ := by
    intro text htext
    have hparse := (h.relocated ((Slice.bytes_ofMemory 0 text).trans htext)).document_eq
    exact ⟨hparse, by rw [hparse, Document.strict_eq, htext]⟩
  have hview : ∀ view : Slice, view.bytes = source.bytes →
      Document.parseView view options = (⟨⟨source.bytes.toArray⟩, v⟩, fault) ∧
        Document.strict (Document.parseView view options) =
          fault.orAnswer source.bytes ⟨⟨source.bytes.toArray⟩, v⟩ := by
    intro view hview
    rw [Document.parseView, hview]
    exact hdocument _ rfl
  refine ⟨fun _ hbytes => (h.relocated hbytes).parse_eq,
    fun _ hbytes => (h.relocated hbytes).parseOwned_eq, fun _ hbytes => ?_, hdocument, hview,
    fun text htext => hview _ ((Slice.bytes_ofBytes 0 text.untilZero).trans htext)⟩
  rw [(h.relocated hbytes).parseStrict_eq, hbytes]

/-- **All ways in agree.**  For every text and all options there is one value or one error that each
of them comes to, wherever the text lies: with the same views, but for the way that gives a value of
its own, which holds none; and with an error the value is null and a document holds the whole text.
An error is found while the value is built, or behind it when it has been built. -/
theorem entry_points_agree (bs : Bytes) (options : ReadOptions) :
    ∃ v fault, EachReads bs options v fault ∧
      (∀ source : Slice, source.bytes = bs → Outcome source options v fault) ∧
      (∀ e, fault = some e → v = .null) ∧ v.detached.borrows = false := by
  obtain ⟨v, fault, h⟩ := exists_outcome (.ofBytes 0 bs) options
  have hbs := Slice.bytes_ofBytes 0 bs
  refine ⟨v, fault, hbs ▸ eachReads h, fun source hsource => h.relocated (hsource.trans hbs.symm),
    ?_, borrows_detached v⟩
  rintro e rfl
  exact h.eq_null

/-- The array is built before what follows it is found, up to the zero byte. -/
example :
    (Document.parseTerminated (Bytes.ofString "[] x\u0000]") {}).2 =
      some ⟨.trailingCharacters, 3, 1, 4⟩ := by
  rfl

end JsonTree
