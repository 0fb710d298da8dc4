import JsonTree.Proofs.Completion.Literal
import JsonTree.Proofs.Concatenation
import JsonTree.Proofs.Finality

/-!
# Completion — operations that find the end too early

Where an operation of a reader finds the end of the document too early, what is left of it can be
completed to what the operation was to find (`Reader.CutShort`): a missing value by a null, a
missing key by an empty one, an open literal by its quote, and an open array or object by its end.

There is one exception.  The letters of a word are compared only if there are as many bytes left, so
a misspelt word near the end of the document (`Misspelt`) is told as an end that came too early,
although nothing completes it.
-/

namespace JsonTree

open Ascii Bytes

/-- The words that are compared only if there are bytes enough. -/
def plainWords : List Bytes :=
  [Bytes.ofString "null", Bytes.ofString "true", Bytes.ofString "false"]

/-- Words differ in their first letters. -/
theorem eq_of_head? : ∀ word ∈ plainWords, ∀ word' ∈ plainWords,
    word.head? = word'.head? → word = word' := by
  decide

/-- The bytes begin with the letter of a word and are fewer than its letters, but they are no
beginning of it. -/
def Misspelt (bs : Bytes) : Prop :=
  ∃ word ∈ plainWords, bs.head? = word.head? ∧ bs.length < word.length ∧ ¬ bs <+: word

instance (bs : Bytes) : Decidable (Misspelt bs) :=
  inferInstanceAs (Decidable (∃ word ∈ plainWords, _))

/-- Nothing is misspelt where nothing is left. -/
theorem not_misspelt_nil : ¬ Misspelt [] := by decide

/-- A string literal is no word. -/
theorem not_misspelt_quote (bs : Bytes) : ¬ Misspelt (quote :: bs) := by
  rintro ⟨word, hmem, hhead, -, -⟩
  simp only [plainWords, List.mem_cons, List.not_mem_nil, or_false] at hmem
  rcases hmem with rfl | rfl | rfl <;> cases hhead

/-! ### Texts of the grammar -/

section

variable {allow : Bool} {room : Nat} {bs : Bytes}

/-- The text of a value that keeps to what is asked for. -/
def NodeText (allow : Bool) (room : Nat) (bs : Bytes) : Prop :=
  ∃ node : Node, bs = node.text ∧ node.Within allow ∧ node.depth ≤ room

/-- The text of what follows an item of an array. -/
def ItemsText (allow : Bool) (room : Nat) (bs : Bytes) : Prop :=
  ∃ more : Items, bs = more.text ∧ more.Within allow ∧ more.depth ≤ room

/-- The text of what follows a member of an object. -/
def FieldsText (allow : Bool) (room : Nat) (bs : Bytes) : Prop :=
  ∃ more : Fields, bs = more.text ∧ more.Within allow ∧ more.depth ≤ room

/-- The text of a value with blanks before it. -/
def ValueText (allow : Bool) (room : Nat) (bs : Bytes) : Prop :=
  ∃ (w : Blanks) (text : Bytes), bs = w.text ++ text ∧ NodeText allow room text

/-- The text of an item, with blanks before it, and of what follows it. -/
def ItemText (allow : Bool) (room : Nat) (bs : Bytes) : Prop :=
  ∃ text more, bs = text ++ more ∧ ValueText allow room text ∧ ItemsText allow room more

/-- The text of a member's value, with blanks before it, and of what follows the member. -/
def MemberText (allow : Bool) (room : Nat) (bs : Bytes) : Prop :=
  ∃ text more, bs = text ++ more ∧ ValueText allow room text ∧ FieldsText allow room more

/-- The text of a key and its colon, with blanks before them. -/
def KeyText (bs : Bytes) : Prop :=
  ∃ (w : Blanks) (l : StringLiteral) (w₁ : Blanks),
    bs = w.text ++ (l.text ++ (w₁.text ++ [colon]))

/-- The text of a member, with blanks before it, and of what follows it. -/
def EntryText (allow : Bool) (room : Nat) (bs : Bytes) : Prop :=
  ∃ key more, bs = key ++ more ∧ KeyText key ∧ MemberText allow room more

namespace ValueText

/-- A value needs no blanks before it. -/
theorem of_node (h : NodeText allow room bs) : ValueText allow room bs :=
  ⟨.none, bs, rfl, h⟩

/-- More blanks may stand in front. -/
theorem blanks (w : Blanks) (h : ValueText allow room bs) :
    ValueText allow room (w.text ++ bs) := by
  obtain ⟨w', text, rfl, h⟩ := h
  refine ⟨w.append w', text, ?_, h⟩
  rw [Blanks.text_append, List.append_assoc]

/-- Where a value is missing a null may stand. -/
theorem null (w : Blanks) : ValueText allow room (w.text ++ Bytes.ofString "null") :=
  ⟨w, _, rfl, .null, rfl, trivial, Nat.zero_le _⟩

end ValueText

theorem ItemText.blanks (w : Blanks) (h : ItemText allow room bs) :
    ItemText allow room (w.text ++ bs) := by
  obtain ⟨text, more, rfl, h, hmore⟩ := h
  exact ⟨w.text ++ text, more, (List.append_assoc _ _ _).symm, h.blanks w, hmore⟩

theorem MemberText.blanks (w : Blanks) (h : MemberText allow room bs) :
    MemberText allow room (w.text ++ bs) := by
  obtain ⟨text, more, rfl, h, hmore⟩ := h
  exact ⟨w.text ++ text, more, (List.append_assoc _ _ _).symm, h.blanks w, hmore⟩

namespace ItemsText

/-- An array may be closed behind any blanks. -/
theorem close (w : Blanks) : ItemsText allow room (w.text ++ [closeBracket]) :=
  ⟨.close w, rfl, trivial, Nat.zero_le _⟩

/-- An array goes on with a comma and one more item. -/
theorem comma (w : Blanks) (h : ItemText allow room bs) :
    ItemsText allow room (w.text ++ Ascii.comma :: bs) := by
  obtain ⟨_, _, rfl, ⟨w', _, rfl, item, rfl, hitem, hdepth⟩, more, rfl, hmore, hdepth'⟩ := h
  refine ⟨.comma w w' item more, ?_, ⟨hitem, hmore⟩, Nat.max_le.mpr ⟨hdepth, hdepth'⟩⟩
  simp only [Items.text, List.append_assoc]

end ItemsText

namespace FieldsText

theorem close (w : Blanks) : FieldsText allow room (w.text ++ [closeBrace]) :=
  ⟨.close w, rfl, trivial, Nat.zero_le _⟩

theorem comma (w : Blanks) (h : EntryText allow room bs) :
    FieldsText allow room (w.text ++ Ascii.comma :: bs) := by
  obtain ⟨_, _, rfl, ⟨w₁, l, w₂, rfl⟩, h⟩ := h
  obtain ⟨_, _, rfl, ⟨w₃, _, rfl, item, rfl, hitem, hdepth⟩, more, rfl, hmore, hdepth'⟩ := h
  refine ⟨.comma w w₁ l w₂ w₃ item more, ?_, ⟨hitem, hmore⟩, Nat.max_le.mpr ⟨hdepth, hdepth'⟩⟩
  simp only [Fields.text, List.append_assoc, List.singleton_append]

end FieldsText

namespace NodeText

/-- A plain word is a value. -/
theorem word {word : Bytes} (h : word ∈ plainWords) : NodeText allow room word := by
  simp only [plainWords, List.mem_cons, List.not_mem_nil, or_false] at h
  rcases h with rfl | rfl | rfl
  · exact ⟨.null, rfl, trivial, Nat.zero_le _⟩
  · exact ⟨.boolean true, rfl, trivial, Nat.zero_le _⟩
  · exact ⟨.boolean false, rfl, trivial, Nat.zero_le _⟩

theorem string (l : StringLiteral) : NodeText allow room l.text :=
  ⟨.string l, rfl, trivial, Nat.zero_le _⟩

/-- An item within brackets is a value one level up. -/
theorem array (h : ItemText allow room bs) : NodeText allow (room + 1) (openBracket :: bs) := by
  obtain ⟨_, _, rfl, ⟨w, _, rfl, item, rfl, hitem, hdepth⟩, more, rfl, hmore, hdepth'⟩ := h
  refine ⟨.array w item more, ?_, ⟨hitem, hmore⟩,
    Nat.succ_le_succ (Nat.max_le.mpr ⟨hdepth, hdepth'⟩)⟩
  simp only [Node.text, List.append_assoc]

/-- A member within braces is a value one level up. -/
theorem object (h : EntryText allow room bs) :
    NodeText allow (room + 1) (openBrace :: bs) := by
  obtain ⟨_, _, rfl, ⟨w, l, w₁, rfl⟩, h⟩ := h
  obtain ⟨_, _, rfl, ⟨w₂, _, rfl, item, rfl, hitem, hdepth⟩, more, rfl, hmore, hdepth'⟩ := h
  refine ⟨.object w l w₁ w₂ item more, ?_, ⟨hitem, hmore⟩,
    Nat.succ_le_succ (Nat.max_le.mpr ⟨hdepth, hdepth'⟩)⟩
  simp only [Node.text, List.append_assoc, List.singleton_append]

end NodeText

end

namespace Reader

variable {s s' : Session Reader} {source : Slice} {allow : Bool} {room : Nat}

/-! ### Ends that came too early -/

/-- The error on record is an end of the document that came too early. -/
def EndsEarly (s : Session Reader) : Prop :=
  ∃ e, s.fault = some e ∧ e.code = .unexpectedEnd

/-- Such an error is told of a misspelt word of the document. -/
def AtMisspelt (source : Slice) (s : Session Reader) : Prop :=
  ∃ e, s.fault = some e ∧ e.code = .unexpectedEnd ∧ Misspelt (source.rest e.offset)

/-- The second reader has found the end too early, not at a misspelt word, and what was left to the
first can be completed. -/
structure CutShort (p : Bytes → Prop) (s s' : Session Reader) : Prop where
  completes : Completes p (rest s)
  spelt : ¬ AtMisspelt s.state.source s'

/-- An error told of a misspelt word is an early end. -/
theorem AtMisspelt.endsEarly (h : AtMisspelt source s) : EndsEarly s := by
  obtain ⟨e, he, hcode, -⟩ := h
  exact ⟨e, he, hcode⟩

/-- A reader without an error has not come to an early end. -/
theorem not_endsEarly (hs : s.failed = false) : ¬ EndsEarly s := by
  rintro ⟨e, he, -⟩
  rw [fault_eq_none hs] at he
  cases he

/-- An early end is an error on record. -/
theorem EndsEarly.failed (h : EndsEarly s) : s.failed = true := by
  cases hs : s.failed with
  | true => rfl
  | false => exact absurd h (not_endsEarly hs)

theorem endsEarly_failAt_iff (hs : s.failed = false) {code : ErrorCode} {offset : Nat} :
    EndsEarly (failAt s code offset) ↔ code = .unexpectedEnd := by
  simp [EndsEarly, fault_failAt hs, Error.locate]

/-- At the offset of the recorded error, the word is misspelt. -/
theorem atMisspelt_failAt_iff (hs : s.failed = false) {code : ErrorCode} {offset : Nat} :
    AtMisspelt source (failAt s code offset) ↔
      code = .unexpectedEnd ∧ Misspelt (source.rest offset) := by
  simp [AtMisspelt, fault_failAt hs, Error.locate]

theorem not_endsEarly_failAt (hs : s.failed = false) {code : ErrorCode} {offset : Nat}
    (hcode : code ≠ .unexpectedEnd) : ¬ EndsEarly (failAt s code offset) :=
  fun h => hcode ((endsEarly_failAt_iff hs).mp h)

/-- Where nothing is left an end is told as it is. -/
theorem spelt_of_here? (hs : s.failed = false) (hb : s.state.here? = none) (code : ErrorCode) :
    ¬ AtMisspelt s.state.source (failHere s code) := by
  intro h
  obtain ⟨-, h⟩ := (atMisspelt_failAt_iff hs).mp h
  rw [Slice.rest_eq_nil_of_get? hb] at h
  exact not_misspelt_nil h

/-- Behind the blanks nothing is left. -/
theorem rest_of_skipBlank_here?_none (hb : (skipBlank s).state.here? = none) :
    ∃ w : Blanks, rest s = w.text := by
  obtain ⟨w, back, hr, -, hskip⟩ := exists_skipBlank s
  rw [hskip, here?_eq, rest_skip hr, List.head?_eq_none_iff] at hb
  exact ⟨w, by rw [hr, hb, List.append_nil]⟩

/-- Blanks that end the document are completed by what may follow blanks. -/
theorem cutShort_of_blanks {p : Bytes → Prop} {tail : Bytes} (hs : s.failed = false)
    (hb : (skipBlank s).state.here? = none) (hne : tail ≠ [])
    (hp : ∀ w : Blanks, p (w.text ++ tail)) :
    CutShort p s (failHere (skipBlank s) .unexpectedEnd) := by
  obtain ⟨w, hr⟩ := rest_of_skipBlank_here?_none hb
  have hs₁ : (skipBlank s).failed = false := hs
  exact ⟨⟨tail, hne, hr ▸ hp w⟩, spelt_of_here? hs₁ hb _⟩

namespace CutShort

variable {p q : Bytes → Prop}

/-- What is completed may have something in front of it. -/
theorem preceded {s₁ : Session Reader} (h : CutShort p s₁ s') {front : Bytes}
    (hfront : Passes front s s₁) (hq : ∀ text, p text → q (front ++ text)) : CutShort q s s' := by
  refine ⟨?_, hfront.source_eq ▸ h.spelt⟩
  rw [hfront.rest_eq]
  exact h.completes.preceded hq

/-- What is completed may be followed by something. -/
theorem followed (h : CutShort p s s') (back : Bytes) (hq : ∀ text, p text → q (text ++ back)) :
    CutShort q s s' :=
  ⟨h.completes.followed back hq, h.spelt⟩

end CutShort

/-! ### What comes next -/

/-- Nothing is told of a byte but what is wrong with it. -/
theorem kindOf_ne_unexpectedEnd (r : Reader) (b : UInt8) :
    r.kindOf b ≠ .error .unexpectedEnd := by
  rw [kindOf]
  repeat' split
  all_goals exact fun h => by cases h

/-- Where telling what comes next meets the end, any value may follow. -/
theorem cutShort_peek (hs : s.failed = false) (h : EndsEarly (peek s).2) :
    CutShort (ValueText allow room) s (peek s).2 := by
  have hs₁ : (skipBlank s).failed = false := hs
  rw [peek] at h ⊢
  cases hb : (skipBlank s).state.here? with
  | none => exact cutShort_of_blanks hs hb (by decide) .null
  | some b =>
      rw [hb] at h
      dsimp only at h
      split at h
      · exact absurd h (not_endsEarly hs₁)
      · next code hkind =>
          obtain rfl := (endsEarly_failAt_iff hs₁).mp h
          exact absurd hkind (kindOf_ne_unexpectedEnd _ _)

theorem cutShort_announce (hs : s.failed = false) (h : EndsEarly (announce s).2) :
    CutShort (ItemText allow room) s (announce s).2 := by
  have hpeek : CutShort (ValueText allow room) s (peek s).2 := cutShort_peek hs h
  exact hpeek.followed [closeBracket] fun text htext => ⟨text, _, rfl, htext, .close .none⟩

/-! ### Words and strings -/

/-- A word that is cut short is misspelt or can be completed. -/
theorem completes_readWord {word : Bytes} (hmem : word ∈ plainWords) (hs : s.failed = false)
    (hhead : (rest s).head? = word.head?) (h : EndsEarly (readWord word s)) :
    AtMisspelt s.state.source (readWord word s) ∨ Completes (NodeText allow room) (rest s) := by
  rw [readWord] at h ⊢
  split at h
  · next hshort =>
      rw [if_pos hshort]
      have hlength : (rest s).length < word.length := by
        have hpos : ∀ word ∈ plainWords, 0 < word.length := by decide
        have hword := hpos word hmem
        rw [rest, Slice.length_rest]
        omega
      by_cases hprefix : rest s <+: word
      · right
        obtain ⟨tail, rfl⟩ := hprefix
        refine ⟨tail, ?_, .word hmem⟩
        rintro rfl
        rw [List.append_nil] at hlength
        exact absurd hlength (Nat.lt_irrefl _)
      · exact .inl ((atMisspelt_failAt_iff hs).mpr ⟨rfl, word, hmem, hhead, hlength, hprefix⟩)
  split at h
  · exact absurd h (not_endsEarly hs)
  · exact absurd h (not_endsEarly_failAt hs ErrorCode.noConfusion)

/-- Where a string literal is cut short, what there is of it is the beginning of a literal. -/
theorem cutShort_readString (hs : s.failed = false) (h : EndsEarly (readString s).2) :
    CutShort (fun bs => ∃ l : StringLiteral, bs = l.text) s (readString s).2 := by
  rw [readString] at h ⊢
  split at h
  · next hquote =>
      rw [if_pos hquote]
      cases hread : Literal.read s.state.source s.state.position with
      | ok found =>
          rw [hread] at h
          obtain ⟨part | bs, stop⟩ := found <;> exact absurd h (not_endsEarly hs)
      | error f =>
          rw [hread] at h
          have hs₁ : (moveTo s f.stop).failed = false := hs
          have hcode := (endsEarly_failAt_iff hs₁).mp h
          obtain ⟨hoffset, hcompletes⟩ := Literal.completes_of_read hquote hread hcode
          refine ⟨hcompletes, fun hmisspelt => ?_⟩
          obtain ⟨-, hmisspelt⟩ := (atMisspelt_failAt_iff hs₁).mp hmisspelt
          rw [hoffset, Slice.rest_eq_cons_of_get? hquote] at hmisspelt
          exact not_misspelt_quote _ hmisspelt
  · exact absurd h (not_endsEarly_failAt hs ErrorCode.noConfusion)

/-! ### Arrays and objects -/

section

variable {α : Type} {closing : UInt8} {ended : α} {p q : Bytes → Prop}

/-- Behind an opening mark only the first part is found to end too early. -/
theorem cutShort_firstPart {first : Session Reader → α × Session Reader}
    (hs : s.failed = false) (hskip : ∀ s, first (skipBlank s) = first s)
    (hfirst : EndsEarly (first s).2 → CutShort p s (first s).2)
    (h : EndsEarly (firstPart closing ended first s).2) :
    CutShort p s (firstPart closing ended first s).2 := by
  rw [firstPart, hskip] at h ⊢
  split at h
  · exact absurd h (not_endsEarly hs)
  · next hopen =>
      rw [if_neg hopen]
      exact hfirst h

/-- Behind a part the closing mark is missing, or the part behind a comma is found to end too
early. -/
theorem cutShort_nextPart {next : Session Reader → α × Session Reader}
    (hs : s.failed = false) (hclose : ∀ w : Blanks, q (w.text ++ [closing]))
    (hcomma : ∀ (w : Blanks) (text : Bytes), p text → q (w.text ++ comma :: text))
    (hnext : ∀ {s}, s.failed = false → EndsEarly (next s).2 → CutShort p s (next s).2)
    (h : EndsEarly (nextPart closing ended next s).2) :
    CutShort q s (nextPart closing ended next s).2 := by
  have hs₁ : (skipBlank s).failed = false := hs
  rw [nextPart] at h ⊢
  cases hb : (skipBlank s).state.here? with
  | none => exact cutShort_of_blanks hs hb (List.cons_ne_nil _ _) hclose
  | some b =>
      rw [hb] at h
      dsimp only at h ⊢
      split at h
      · next hmark =>
          obtain rfl := beq_iff_eq.mp hmark
          obtain ⟨w, hw⟩ := mark_iff_passes.mp ((mark_iff rfl).mpr ⟨hb, rfl⟩)
          rw [if_pos hmark]
          refine (hnext (s := step (skipBlank s)) hs h).preceded hw fun text htext => ?_
          simpa using hcomma w text htext
      split at h
      · exact absurd h (not_endsEarly hs₁)
      · exact absurd h (not_endsEarly_failAt hs₁ ErrorCode.noConfusion)

end

/-- Where opening an array meets the end, what there is of it is the beginning of an array. -/
theorem cutShort_openArray (hs : s.failed = false) (h : EndsEarly (openArray s).2) :
    CutShort (NodeText allow (room + 1)) s (openArray s).2 := by
  rw [openArray] at h ⊢
  split at h
  · next hopen =>
      rw [if_pos hopen]
      have hs₁ : (step s).failed = false := hs
      have hcut : CutShort (ItemText allow room) (step s) (firstPart closeBracket none announce
          (step s)).2 := cutShort_firstPart hs₁ announce_skipBlank (cutShort_announce hs₁) h
      have hfront : Passes [openBracket] s (step s) :=
        ⟨⟨_, Slice.rest_eq_cons_of_get? hopen⟩, rfl⟩
      exact hcut.preceded hfront fun text htext => .array htext
  · exact absurd h (not_endsEarly_failAt hs ErrorCode.noConfusion)

/-- Where going on in an array meets the end, a comma or the bracket may follow. -/
theorem cutShort_nextItem (hs : s.failed = false) (h : EndsEarly (nextItem s).2) :
    CutShort (ItemsText allow room) s (nextItem s).2 :=
  cutShort_nextPart hs .close (fun w _ htext => ItemsText.comma w htext) cutShort_announce h

/-- The key that may stand where one is missing. -/
def emptyLiteral : StringLiteral :=
  ⟨[], List.forall_mem_nil _⟩

/-- Where a key is cut short, the rest of it and the colon may follow. -/
theorem cutShort_readKey (hs : s.failed = false) (h : EndsEarly (readKey s).2) :
    CutShort KeyText s (readKey s).2 := by
  have hs₁ : (skipBlank s).failed = false := hs
  rw [readKey] at h ⊢
  cases hb : (skipBlank s).state.here? with
  | none =>
      exact cutShort_of_blanks hs hb (List.cons_ne_nil _ _) fun w => ⟨w, emptyLiteral, .none, rfl⟩
  | some b =>
      rw [hb] at h
      dsimp only at h ⊢
      split at h
      · next hquote =>
          rw [if_pos hquote]
          obtain ⟨w, back, hr, -, hskip⟩ := exists_skipBlank s
          have hw : Passes w.text s (skipBlank s) := ⟨⟨back, hr⟩, hskip⟩
          cases hf : (readString (skipBlank s)).2.failed with
          | true =>
              -- the literal ends too early
              rw [hf] at h
              rw [if_pos rfl]
              have hcut : CutShort (fun bs => ∃ l : StringLiteral, bs = w.text ++ l.text) s
                  (readString (skipBlank s)).2 :=
                (cutShort_readString hs₁ h).preceded hw fun text htext =>
                  htext.imp fun l hl => congrArg (w.text ++ ·) hl
              refine hcut.followed [colon] ?_
              rintro _ ⟨l, rfl⟩
              exact ⟨w, l, .none, List.append_assoc _ _ _⟩
          | false =>
              rw [hf, if_neg Bool.false_ne_true] at h
              rw [if_neg Bool.false_ne_true]
              obtain ⟨l, back', hr', -, hl⟩ := (readString_eq_iff hs₁).mp ⟨rfl, hf⟩
              have hwl := hw.append ⟨⟨back', hr'⟩, hl⟩
              cases hc : (skipBlank (readString (skipBlank s)).2).state.here? with
              | none =>
                  -- the colon is missing
                  rw [hc] at h
                  have hcut : CutShort (fun bs => ∃ w₁ : Blanks, bs = w₁.text ++ [colon]) _ _ :=
                    cutShort_of_blanks hf hc (List.cons_ne_nil colon []) fun w₁ => ⟨w₁, rfl⟩
                  refine hcut.preceded hwl ?_
                  rintro _ ⟨w₁, rfl⟩
                  exact ⟨w, l, w₁, List.append_assoc _ _ _⟩
              | some c =>
                  rw [hc] at h
                  have hs₂ : (skipBlank (readString (skipBlank s)).2).failed = false := hf
                  dsimp only at h
                  split at h
                  · exact absurd h (not_endsEarly hs₂)
                  · exact absurd h (not_endsEarly_failAt hs₂ ErrorCode.noConfusion)
      · exact absurd h (not_endsEarly_failAt hs₁ ErrorCode.noConfusion)

/-- A key is followed by a null, and by the end of the object. -/
theorem cutShort_entry (hs : s.failed = false) (h : EndsEarly (readKey s).2) :
    CutShort (EntryText allow room) s (readKey s).2 := by
  have hmore : MemberText allow room (Bytes.ofString "null\x7d") :=
    ⟨Bytes.ofString "null", [closeBrace], rfl, .null .none, .close .none⟩
  exact (cutShort_readKey hs h).followed _ fun key hkey => ⟨key, _, rfl, hkey, hmore⟩

/-- Where opening an object meets the end, what there is of it is the beginning of an object. -/
theorem cutShort_openObject (hs : s.failed = false) (h : EndsEarly (openObject s).2) :
    CutShort (NodeText allow (room + 1)) s (openObject s).2 := by
  rw [openObject] at h ⊢
  split at h
  · next hopen =>
      rw [if_pos hopen]
      have hs₁ : (step s).failed = false := hs
      have hcut : CutShort (EntryText allow room) (step s)
          (firstPart closeBrace none readKey (step s)).2 :=
        cutShort_firstPart hs₁ readKey_skipBlank (cutShort_entry hs₁) h
      have hfront : Passes [openBrace] s (step s) :=
        ⟨⟨_, Slice.rest_eq_cons_of_get? hopen⟩, rfl⟩
      exact hcut.preceded hfront fun text htext => .object htext
  · exact absurd h (not_endsEarly_failAt hs ErrorCode.noConfusion)

/-- Where going on in an object meets the end, a comma or the brace may follow. -/
theorem cutShort_nextKey (hs : s.failed = false) (h : EndsEarly (nextKey s).2) :
    CutShort (FieldsText allow room) s (nextKey s).2 :=
  cutShort_nextPart hs .close (fun w _ htext => FieldsText.comma w htext) cutShort_entry h

/-! ### Numbers -/

/-- A number is not told to end too early. -/
theorem not_endsEarly_readInteger (hs : s.failed = false) : ¬ EndsEarly (readInteger s).2 := by
  have hs₁ : (skipBlank s).failed = false := hs
  rw [readInteger]
  split
  · exact not_endsEarly hs₁
  split
  · exact not_endsEarly_failAt hs₁ ErrorCode.noConfusion
  split
  · split
    · exact not_endsEarly hs₁
    · exact not_endsEarly hs₁
  · exact not_endsEarly hs₁

/-- What is wrong with a number is never that the text ends too early. -/
theorem not_endsEarly_readFloat (hs : s.failed = false) : ¬ EndsEarly (readFloat s).2 := by
  have hs₁ : (skipBlank s).failed = false := hs
  rw [readFloat]
  dsimp only
  split
  · exact not_endsEarly hs₁
  split
  · exact not_endsEarly_failAt hs₁ ErrorCode.noConfusion
  split
  · exact not_endsEarly hs₁
  · exact not_endsEarly_failAt hs₁ ErrorCode.noConfusion

theorem not_endsEarly_number (hs : s.failed = false) :
    ¬ EndsEarly (Build.number tokens s).2 := by
  rw [Build.number]
  dsimp only [tokens]
  split
  · exact not_endsEarly_readInteger hs
  next hi =>
  have hs₁ : (readInteger s).2.failed = false := by simpa using hi
  split
  · exact not_endsEarly hs₁
  · exact not_endsEarly_failAt hs₁ ErrorCode.noConfusion
  · exact not_endsEarly_readFloat hs₁

/-! ### Scalars -/

/-- A value that ends too early is a word or a string literal. -/
theorem scalar_of_endsEarly {kind : Kind} (hs : s.failed = false) (hready : Ready kind s)
    (h : EndsEarly (Build.scalar tokens kind s).2) :
    (∃ word ∈ plainWords, (rest s).head? = word.head? ∧
      ∀ t, (Build.scalar tokens kind t).2 = readWord word t) ∨
      ∀ t, (Build.scalar tokens kind t).2 = (readString t).2 := by
  have hhead : ∀ {b : UInt8}, (∀ bs, Announces s.state.options.allowNonFinite kind bs →
      bs.head? = some b) → (rest s).head? = some b :=
    fun hbegins => hbegins _ hready
  cases kind with
  | null =>
      exact .inl ⟨Bytes.ofString "null", by decide, hhead fun _ h => by cases h; rfl, fun _ => rfl⟩
  | true =>
      exact .inl ⟨Bytes.ofString "true", by decide, hhead fun _ h => by cases h; rfl, fun _ => rfl⟩
  | false =>
      exact .inl ⟨Bytes.ofString "false", by decide, hhead fun _ h => by cases h; rfl, fun _ => rfl⟩
  | string => exact .inr fun _ => rfl
  | number => exact absurd h (not_endsEarly_number hs)
  | infinity | nan => exact absurd h (not_endsEarly_readFloat hs)
  | minus | array | object | other =>
      exact absurd h (not_endsEarly_failAt hs ErrorCode.noConfusion)

end Reader

end JsonTree
