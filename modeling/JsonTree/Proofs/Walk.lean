import JsonTree.Proofs.Flaw
import JsonTree.Proofs.RoundTrip

/-!
# Walks — going through a text one character at a time

Where a text is checked, the length of the character at the front is asked for, and the text is
gone on with behind it.  `Walks bs ks` says that this leads through the whole of `bs` and that the
lengths on the way are `ks`.

* `walks_iff`: a text is walked through exactly when it is what is written for some characters, and
  the steps are theirs.
* `wellFormed_iff_exists_walk`: so the texts that are walked through are the well-formed ones.
* `wellFormed_flatten`: what is put together from well-formed texts is well formed.
* `wellFormed_readString`: so is what a string is read as, escapes or not.
-/

namespace JsonTree.Utf8

/-- The text is gone through from its beginning to its end by the lengths of the characters found on
the way. -/
inductive Walks : Bytes → List Nat → Prop where
  /-- The end has been reached. -/
  | done : Walks [] []
  /-- There is a character at the front, and the way goes on behind it. -/
  | step {bs : Bytes} {n k : Nat} {ks : List Nat} :
      decode? bs = some (n, k) → Walks (bs.drop k) ks → Walks bs (k :: ks)

/-! ### Characters -/

/-- Over a character of the table one step is taken. -/
theorem Walks.cons {n : Nat} {c rest : Bytes} {ks : List Nat} (hc : Encodes n c)
    (h : Walks rest ks) : Walks (c ++ rest) (c.length :: ks) :=
  .step (decode?_of_encodes hc rest) (by rwa [List.drop_left])

/-- **A text is walked through exactly when it is what is written for characters**, and each step is
over one of them. -/
theorem walks_iff {bs : Bytes} {ks : List Nat} :
    Walks bs ks ↔ ∃ ns : List Nat, (∀ n ∈ ns, isScalar n = true) ∧ bs = ns.flatMap encode ∧
      ks = ns.map fun n => (encode n).length := by
  constructor
  · intro h
    induction h with
    | done => exact ⟨[], List.forall_mem_nil _, rfl, rfl⟩
    | @step bs n k ks hdecode _ ih =>
        obtain ⟨c, rest, rfl, rfl, hc⟩ := encodes_of_decode? hdecode
        obtain ⟨ns, hns, hrest, rfl⟩ := ih
        obtain ⟨hn, rfl⟩ := encodes_iff.mp hc
        rw [List.drop_left] at hrest
        exact ⟨n :: ns, List.forall_mem_cons.mpr ⟨hn, hns⟩,
          by rw [List.flatMap_cons, ← hrest], rfl⟩
  · rintro ⟨ns, hns, rfl, rfl⟩
    induction ns with
    | nil => exact .done
    | cons n ns ih =>
        obtain ⟨hn, hns⟩ := List.forall_mem_cons.mp hns
        rw [List.flatMap_cons]
        exact (ih hns).cons (encodes_encode hn)

/-! ### Well-formed texts -/

theorem WellFormed.exists_walk {bs : Bytes} (h : WellFormed bs) : ∃ ks, Walks bs ks := by
  induction h with
  | nil => exact ⟨[], .done⟩
  | cons hc _ ih =>
      obtain ⟨ks, hks⟩ := ih
      exact ⟨_, hks.cons hc⟩

theorem Walks.wellFormed {bs : Bytes} {ks : List Nat} (h : Walks bs ks) : WellFormed bs := by
  induction h with
  | done => exact .nil
  | step hdecode _ ih =>
      obtain ⟨c, rest, rfl, rfl, hc⟩ := encodes_of_decode? hdecode
      rw [List.drop_left] at ih
      exact .cons hc ih

/-- **The texts that are walked through are the well-formed ones.** -/
theorem wellFormed_iff_exists_walk {bs : Bytes} : WellFormed bs ↔ ∃ ks, Walks bs ks :=
  ⟨WellFormed.exists_walk, fun ⟨_, h⟩ => h.wellFormed⟩

theorem WellFormed.append {bs cs : Bytes} (h : WellFormed bs) (hcs : WellFormed cs) :
    WellFormed (bs ++ cs) := by
  induction h with
  | nil => exact hcs
  | cons hc _ ih =>
      rw [List.append_assoc]
      exact .cons hc ih

/-- **Well-formed texts put together are well formed.** -/
theorem wellFormed_flatten {parts : List Bytes} (h : ∀ part ∈ parts, WellFormed part) :
    WellFormed parts.flatten := by
  induction parts with
  | nil => exact .nil
  | cons part parts ih =>
      obtain ⟨hpart, hparts⟩ := List.forall_mem_cons.mp h
      exact hpart.append (ih hparts)

open Reader in
/-- What a string is read as is well formed; it is nothing when none can be read. -/
theorem wellFormed_readString (s : Session Reader) :
    WellFormed (readString s).1.characters.bytes := by
  rw [readString]
  split
  · next hquote =>
      cases hread : Literal.read s.state.source s.state.position with
      | error f => exact .nil
      | ok r =>
          obtain ⟨l, back, hrest, rfl⟩ := (Literal.read_eq_ok_iff hquote).mp hread
          have hbytes : (l.characters s.state.source s.state.position).bytes = l.bytes :=
            bytes_stringToken hrest
          have hformed := hbytes ▸ l.wellFormed_bytes
          generalize l.characters s.state.source s.state.position = x at hformed
          cases x <;> exact hformed
  · exact .nil

/-- **Texts are walked through by characters.**  Going by the lengths of the characters at the front
leads through a text exactly when the text is well formed, and then each step is over what is
written for one code point that is no surrogate and at most `0x10FFFF`.  What is written for a list
of these is walked through by just such steps.  What is put together from well-formed texts is well
formed, and so is what is put together when a string is read. -/
theorem texts_are_walked_by_characters :
    (∀ bs, (∃ ks, Walks bs ks) ↔ WellFormed bs) ∧
    (∀ bs ks, Walks bs ks ↔ ∃ ns : List Nat,
      (∀ n ∈ ns, n < 0xD800 ∨ 0xE000 ≤ n ∧ n ≤ 0x10FFFF) ∧ bs = ns.flatMap encode ∧
        ks = ns.map fun n => (encode n).length) ∧
    (∀ parts : List Bytes, (∀ part ∈ parts, WellFormed part) → WellFormed parts.flatten) ∧
    ∀ s : Session Reader, WellFormed (Reader.readString s).1.characters.bytes := by
  refine ⟨fun bs => wellFormed_iff_exists_walk.symm, fun bs ks => ?_,
    fun parts => wellFormed_flatten, wellFormed_readString⟩
  simp only [walks_iff, isScalar_iff]

/-- A sign of three bytes and one of four; and a surrogate, which is not walked over. -/
theorem texts_are_walked_by_characters_euroAndClef :
    Walks [0xE2, 0x82, 0xAC, 0xF0, 0x9D, 0x84, 0x9E] [3, 4] ∧
      WellFormed [0xE2, 0x82, 0xAC, 0xF0, 0x9D, 0x84, 0x9E] ∧
      ¬ WellFormed [0x61, 0xED, 0xA0, 0x80] ∧
      WellFormed ([[0xE2, 0x82, 0xAC], [0x22], [0xF0, 0x9D, 0x84, 0x9E]] : List Bytes).flatten := by
  obtain ⟨hformed, hwalks, hflatten, -⟩ := texts_are_walked_by_characters
  have hscalars : ∀ n ∈ [0x20AC, 0x1D11E], n < 0xD800 ∨ 0xE000 ≤ n ∧ n ≤ 0x10FFFF := by decide
  have hwalk : Walks [0xE2, 0x82, 0xAC, 0xF0, 0x9D, 0x84, 0x9E] [3, 4] :=
    (hwalks _ _).mpr ⟨[0x20AC, 0x1D11E], hscalars, by decide, by decide⟩
  refine ⟨hwalk, (hformed _).mp ⟨_, hwalk⟩, fun h => ?_, hflatten _ ?_⟩
  · obtain ⟨ks, hks⟩ := (hformed _).mpr h
    cases hks with
    | step hletter hrest =>
        obtain ⟨rfl, rfl⟩ := Prod.mk.inj (Option.some.inj hletter)
        cases hrest with
        | step hsurrogate _ => cases hsurrogate
  · have hone : ∀ n, (n < 0xD800 ∨ 0xE000 ≤ n ∧ n ≤ 0x10FFFF) → WellFormed (encode n) := fun n hn =>
      (hformed _).mp ⟨_, (hwalks _ _).mpr ⟨[n], by simpa using hn, by simp, rfl⟩⟩
    simp only [List.forall_mem_cons]
    exact ⟨hone 0x20AC (by decide), hone 0x22 (by decide), hone 0x1D11E (by decide),
      List.forall_mem_nil _⟩

end JsonTree.Utf8
