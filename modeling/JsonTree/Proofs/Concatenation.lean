import JsonTree.Proofs.Reading

/-!
# Concatenation — a document in front of other bytes

A whole document is read in the same way when more bytes follow it, unless they go on with a number
at its end.  So several documents can be read one after the other from one source.

* `Derivation.endsBefore_of_separated`: what follows a document cannot be joined to its value.
* `Derivation.exists_build`: the value is built from the longer source, and the cursor is left
  behind its last byte.
* `documents_in_sequence`: the document alone, the document in front, and two documents in a row.
-/

namespace JsonTree

open Ascii Bytes Reader

/-! ### What may follow a document -/

/-- A finite number. -/
def Value.isFiniteNumber : Value → Bool
  | integer _ => true
  | floating x => x.isFinite
  | _ => false

/-- Goes on with a number: a digit, a point or the mark of a power of ten. -/
def continuesNumber (b : UInt8) : Bool :=
  isDigit b || b == point || isMark b

/-- More bytes may follow a document: its value is no finite number, or the document ends in a
blank, or there are no more bytes, or the first of them does not go on with a number. -/
def Separated (v : Value) (document tail : Bytes) : Prop :=
  v.isFiniteNumber = false ∨ (∃ b ∈ document.getLast?, isBlank b = true) ∨ tail = [] ∨
    ∃ b back, tail = b :: back ∧ continuesNumber b = false

theorem not_continuesNumber_of_isBlank :
    ∀ b : UInt8, isBlank b = true → continuesNumber b = false :=
  forall_byte (by decide)

theorem continuesNumber_of_isDigit : ∀ b : UInt8, isDigit b = true → continuesNumber b = true :=
  forall_byte (by decide)

theorem continuesNumber_of_isMark : ∀ b : UInt8, isMark b = true → continuesNumber b = true :=
  forall_byte (by decide)

theorem continuesNumber_of_isPoint : ∀ b : UInt8, (b == point) = true → continuesNumber b = true :=
  forall_byte (by decide)

/-- A number ends before a byte that cannot continue one. -/
theorem Numeral.endsBefore_of_stops_continuesNumber {n : Numeral} {back : Bytes}
    (h : Stops continuesNumber back) : n.EndsBefore back :=
  ⟨h.mono continuesNumber_of_isDigit, fun _ _ => h.mono continuesNumber_of_isPoint,
    fun _ => h.mono continuesNumber_of_isMark⟩

/-- A number with a meaning means a finite number. -/
theorem NumberLiteral.isFiniteNumber_value {n : NumberLiteral} (h : n.Within) :
    n.value.isFiniteNumber = true := by
  rw [Within] at h
  rw [value]
  split at h
  · next hi => rw [if_pos hi, Value.isFiniteNumber]
  · next hi => rwa [if_neg hi, Value.isFiniteNumber]

/-- A document that ends in a blank has blanks behind its number. -/
theorem Derivation.after_ne_nil {d : Derivation} {n : NumberLiteral} (hroot : d.root = .number n)
    {b : UInt8} (hlast : b ∈ d.text.getLast?) (hb : isBlank b = true) : d.after.text ≠ [] := by
  intro hnil
  have htext : n.numeral.text ≠ [] := by
    obtain ⟨b', ds, hw, -⟩ := n.proper.whole.exists_cons
    simp [Numeral.text_eq, hw]
  have hmem : b ∈ n.numeral.text := by
    rw [text, hroot, hnil, List.append_nil, Node.text, NumberLiteral.text,
      List.getLast?_append_of_ne_nil _ htext] at hlast
    exact List.mem_of_getLast? hlast
  have hpart := n.proper.isPart_of_mem b hmem
  rw [not_isPart_of_isBlank b hb] at hpart
  cases hpart

/-- **What follows a document cannot be joined to its value.** -/
theorem Derivation.endsBefore_of_separated {d : Derivation} {allow : Bool} {tail : Bytes}
    (hin : d.root.Within allow) (h : Separated d.value d.text tail) :
    d.root.EndsBefore (d.after.text ++ tail) := by
  cases hroot : d.root with
  | number n =>
      refine Numeral.endsBefore_of_stops_continuesNumber ?_
      have hafter : Stops continuesNumber d.after.text := by
        cases hw : d.after.text with
        | nil => exact stops_nil _
        | cons b bs =>
            refine (stops_cons _ _ _).mpr (not_continuesNumber_of_isBlank b (d.after.blank b ?_))
            rw [hw]
            exact List.mem_cons_self
      rcases h with hnumber | ⟨b, hlast, hb⟩ | rfl | ⟨b, back, rfl, hb⟩
      · rw [hroot] at hin
        rw [value, hroot, Node.value, NumberLiteral.isFiniteNumber_value hin] at hnumber
        cases hnumber
      · obtain ⟨b', bs, hw⟩ := List.exists_cons_of_ne_nil (d.after_ne_nil hroot hlast hb)
        rw [hw] at hafter ⊢
        exact (stops_cons _ _ _).mpr ((stops_cons _ _ _).mp hafter)
      · rwa [List.append_nil]
      · exact stops_append hafter ((stops_cons _ _ _).mpr hb)
  | null | boolean | nonFinite | string | emptyArray | array | emptyObject | object => trivial

/-! ### Building from a longer source -/

/-- Blanks and more blanks behind them. -/
def Blanks.append (w w' : Blanks) : Blanks where
  text := w.text ++ w'.text
  blank b hb := (List.mem_append.mp hb).elim (w.blank b) (w'.blank b)

@[simp] theorem Blanks.text_append (w w' : Blanks) : (w.append w').text = w.text ++ w'.text := rfl

namespace Derivation

variable {d : Derivation} {limit : Nat} {s : Session Reader} {tail : Bytes}

/-- **The value of a document is built although more follows**, and the cursor is left behind its
last byte. -/
theorem exists_build (hs : s.failed = false) (hr : rest s = d.text ++ tail)
    (hin : d.root.Within s.state.options.allowNonFinite) (hdepth : d.root.depth ≤ limit)
    (hsep : Separated d.value d.text tail) :
    ∃ s', build limit s = (d.value, s') ∧ Passes (d.before.text ++ d.root.text) s s' ∧
      rest s' = d.after.text ++ tail := by
  have hr' : rest s = d.before.text ++ (d.root.text ++ (d.after.text ++ tail)) := by
    rw [hr, text]
    simp only [List.append_assoc]
  obtain ⟨s', hbuild, hpasses⟩ :=
    build_derivation hs hr' (endsBefore_of_separated hin hsep) hin hdepth
  refine ⟨s', hbuild, hpasses, ?_⟩
  rw [hpasses.behind]
  exact rest_skip (by rw [hr', List.append_assoc])

/-- The document is read when its end is not asked for; blanks at the front of what follows are gone
over as well. -/
theorem parse_in_front {source : Slice} {allow : Bool} (hsource : source.bytes = d.text ++ tail)
    (hin : d.root.Within allow) (hdepth : d.root.depth ≤ limit)
    (hsep : Separated d.value d.text tail) :
    parse source ⟨limit, false, allow⟩ = ⟨d.value, none⟩ := by
  have hbytes : source.bytes =
      text ⟨d.before, d.root, d.after.append (blanksOf tail)⟩ ++ tail.dropWhile isBlank := by
    rw [hsource, text, text, Blanks.text_append, blanksOf]
    simp only [List.append_assoc, List.takeWhile_append_dropWhile]
  refine parse_eq_ok_iff.mpr ⟨_, _, hbytes, ?_, stops_dropWhile _ _,
    fun hend => absurd hend Bool.false_ne_true, ⟨hin, hdepth⟩, rfl⟩
  rw [Blanks.text_append, blanksOf, List.append_assoc, List.takeWhile_append_dropWhile]
  exact endsBefore_of_separated hin hsep

/-- The last document of a source is built behind blanks that belong to another one, and then the
source may end. -/
theorem exists_build_finish {w : Blanks} (hs : s.failed = false)
    (hpos : s.state.position ≤ s.state.source.size) (hr : rest s = w.text ++ d.text)
    (hin : d.root.Within s.state.options.allowNonFinite) (hdepth : d.root.depth ≤ limit) :
    ∃ s' s'', build limit s = (d.value, s') ∧ s'.failed = false ∧ finish s' = (true, s'') ∧
      s''.failed = false := by
  have hr' : rest s = text ⟨w.append d.before, d.root, d.after⟩ ++ [] := by
    rw [hr, text, text, Blanks.text_append]
    simp only [List.append_assoc, List.append_nil]
  obtain ⟨s', hbuild, hpasses, hafter⟩ :=
    exists_build (d := ⟨w.append d.before, d.root, d.after⟩) hs hr' hin hdepth
      (.inr (.inr (.inl rfl)))
  have hend : rest (skip s' d.after.text.length) = [] := rest_skip hafter
  have hfinish := (finish_eq_iff (hpasses.position_le hpos)).mpr
    ⟨d.after, .of_rest hafter, hend ▸ stops_nil _, fun _ => hend⟩
  have hs' : s'.failed = false := hpasses.failed_eq.trans hs
  exact ⟨s', _, hbuild, hs', hfinish, hs'⟩

end Derivation

/-- **Documents are read one after the other.**  Take a document that is accepted, and a source that
goes on behind it with bytes that cannot be joined to its value.  From a reader over the source the
document's value is built, its views and copies alike, and the cursor is left behind the value's
last byte.  So the document is also read when its end is not asked for; and when the other bytes are
another document that is accepted, its value is built next, and then the source is at its end. -/
theorem documents_in_sequence {document source : Slice} {limit : Nat} {allow : Bool} {v : Value}
    {tail : Bytes} (h : parse document ⟨limit, true, allow⟩ = ⟨v, none⟩)
    (hsep : Separated v document.bytes tail) (hsource : source.bytes = document.bytes ++ tail) :
    (∃ d : Derivation, document.bytes = d.text ∧ d.value = v ∧ ∀ maxDepth requireEnd, ∃ s,
      build limit (start source ⟨maxDepth, requireEnd, allow⟩) = (v, s) ∧ s.failed = false ∧
        s.state.position = (d.before.text ++ d.root.text).length) ∧
    parse source ⟨limit, false, allow⟩ = ⟨v, none⟩ ∧
    ∀ {next : Slice} {limit' : Nat} {v' : Value},
      parse next ⟨limit', true, allow⟩ = ⟨v', none⟩ → tail = next.bytes →
      ∀ maxDepth requireEnd, ∃ s s' s'',
        build limit (start source ⟨maxDepth, requireEnd, allow⟩) = (v, s) ∧ s.failed = false ∧
          build limit' s = (v', s') ∧ s'.failed = false ∧
          finish s' = (true, s'') ∧ s''.failed = false := by
  obtain ⟨d, hd, ⟨hin, hdepth⟩, rfl⟩ := (parse_eq_iff_exists_derivation _ _ _ _).mp h
  rw [hd] at hsep hsource
  have hbuild (maxDepth requireEnd) :=
    d.exists_build (s := start source ⟨maxDepth, requireEnd, allow⟩) rfl hsource hin hdepth hsep
  refine ⟨⟨d, hd, rfl, fun maxDepth requireEnd => ?_⟩,
    d.parse_in_front hsource hin hdepth hsep, ?_⟩
  · obtain ⟨s, hs, hpasses, -⟩ := hbuild maxDepth requireEnd
    refine ⟨s, hs, hpasses.failed_eq, ?_⟩
    rw [hpasses.behind]
    exact Nat.zero_add _
  · intro next limit' v' h' htail maxDepth requireEnd
    obtain ⟨d', hd', ⟨hin', hdepth'⟩, rfl⟩ := (parse_eq_iff_exists_derivation _ _ _ _).mp h'
    obtain ⟨s, hs, hpasses, hr⟩ := hbuild maxDepth requireEnd
    have ho : s.state.options = ⟨maxDepth, requireEnd, allow⟩ := hpasses.options_eq
    rw [htail, hd'] at hr
    obtain ⟨s', s'', hs', hf', hfinish, hf''⟩ := d'.exists_build_finish hpasses.failed_eq
      (hpasses.position_le (Nat.zero_le _)) hr (ho.symm ▸ hin') hdepth'
    exact ⟨s, s', s'', hs, hpasses.failed_eq, hs', hf', hfinish, hf''⟩

/-- The sign of the second number could stand in a power of ten of the first, but not here. -/
theorem documents_in_sequence_signBetween :
    parse (.ofBytes 0 (Bytes.ofString "12")) {} = ⟨.integer 12, none⟩ ∧
      parse (.ofBytes 1 (Bytes.ofString "-3")) {} = ⟨.integer (-3), none⟩ ∧
      Separated (.integer 12) (Bytes.ofString "12") (Bytes.ofString "-3") ∧
      ∃ s s' s'', build 256 (start (.ofBytes 2 (Bytes.ofString "12-3")) {}) = (.integer 12, s) ∧
        s.failed = false ∧ build 256 s = (.integer (-3), s') ∧ s'.failed = false ∧
        finish s' = (true, s'') ∧ s''.failed = false := by
  have h : parse (.ofBytes 0 (Bytes.ofString "12")) {} = ⟨.integer 12, none⟩ := rfl
  have h' : parse (.ofBytes 1 (Bytes.ofString "-3")) {} = ⟨.integer (-3), none⟩ := rfl
  have hsep : Separated (.integer 12) (Bytes.ofString "12") (Bytes.ofString "-3") :=
    .inr (.inr (.inr ⟨_, _, rfl, by decide⟩))
  exact ⟨h, h', hsep, (documents_in_sequence h hsep rfl).2.2 h' rfl 256 true⟩

end JsonTree
