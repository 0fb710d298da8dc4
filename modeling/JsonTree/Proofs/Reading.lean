import JsonTree.Parse
import JsonTree.Proofs.Builder
import JsonTree.Proofs.Cursor

/-!
# Reading — a document is accepted exactly when it has a derivation

The reader's operations find the tokens of the grammar, and the builder puts together what they hand
out.  So what the reader hands out from a place on is what a derivation has there
(`stands_of_hands`), and what a derivation has there is handed out (`offers`).

* `parse_eq_ok_iff`: a document is read exactly when a derivation stands at its front.
* `parse_eq_iff_exists_derivation`: a whole document is accepted exactly when it has a derivation.
-/

namespace JsonTree

open Ascii Bytes Reader Build

/-- What follows cannot be joined to the value. -/
def Node.EndsBefore : Node → Bytes → Prop
  | .number n, back => n.numeral.EndsBefore back
  | _, _ => True

namespace Reader

/-- A value of the grammar stands at the cursor, and the second cursor behind it. -/
structure NodeAt (node : Node) (s s' : Session Reader) : Prop where
  passes : Passes node.text s s'
  ends : node.EndsBefore (rest s')
  within : node.Within s.state.options.allowNonFinite

/-- The items up to the end of an array stand at the cursor, and the second cursor behind them. -/
structure ItemsAt (more : Items) (s s' : Session Reader) : Prop where
  passes : Passes more.text s s'
  within : more.Within s.state.options.allowNonFinite

/-- The members up to the end of an object stand at the cursor, and the second cursor behind
them. -/
structure FieldsAt (more : Fields) (s s' : Session Reader) : Prop where
  passes : Passes more.text s s'
  within : more.Within s.state.options.allowNonFinite

/-- At most one number stands at the cursor. -/
theorem NumberHere.unique {n n' : NumberLiteral} {s : Session Reader} (h : NumberHere n s)
    (h' : NumberHere n' s) : n.numeral = n'.numeral := by
  have hn := numeralAt_eq_iff.mpr ⟨n, rfl, h, rfl⟩
  have hn' := numeralAt_eq_iff.mpr ⟨n', rfl, h', rfl⟩
  rw [hn] at hn'
  exact (Prod.mk.inj (Option.some.inj hn')).1

/-- A number stands at the cursor when it can be passed and ends before what follows. -/
theorem numberHere_iff {n : NumberLiteral} {s : Session Reader} :
    NumberHere n s ↔ Passes n.text s (skip s n.text.length) ∧
      n.numeral.EndsBefore (rest (skip s n.text.length)) := by
  constructor
  · rintro ⟨back, hr, he⟩
    rw [rest_skip hr]
    exact ⟨.of_rest hr, he⟩
  · rintro ⟨h, he⟩
    exact ⟨_, h.rest_eq, he⟩

theorem nodeAt_number {n : NumberLiteral} {s : Session Reader} (h : NumberHere n s)
    (hw : n.Within) : NodeAt (.number n) s (skip s n.text.length) := by
  obtain ⟨hp, he⟩ := numberHere_iff.mp h
  exact ⟨hp, he, hw⟩

/-- What stands behind something passed over keeps to the same options. -/
theorem within_items {node : Node} {more : Items} {s₀ s s₁ s' : Session Reader}
    (ho : s.state.options = s₀.state.options) (h : NodeAt node s s₁) (h' : ItemsAt more s₁ s') :
    node.Within s₀.state.options.allowNonFinite ∧ more.Within s₀.state.options.allowNonFinite := by
  have hin := h.within
  have hin' := h'.within
  rw [h.passes.options_eq] at hin'
  rw [ho] at hin hin'
  exact ⟨hin, hin'⟩

/-- A value and the members behind it are all within the bounds of one reader. -/
theorem within_fields {node : Node} {more : Fields} {s₀ s s₁ s' : Session Reader}
    (ho : s.state.options = s₀.state.options) (h : NodeAt node s s₁) (h' : FieldsAt more s₁ s') :
    node.Within s₀.state.options.allowNonFinite ∧ more.Within s₀.state.options.allowNonFinite := by
  have hin := h.within
  have hin' := h'.within
  rw [h.passes.options_eq] at hin'
  rw [ho] at hin hin'
  exact ⟨hin, hin'⟩

/-! ### What is handed out stands in the document -/

/-- What the document has where a part is handed out. -/
def Stands : Part → Nat → Session Reader → Session Reader → Prop
  | .value kind v, d, s, s' => Announces s.state.options.allowNonFinite kind (rest s) →
      ∃ node : Node, NodeAt node s s' ∧ v = node.value ∧ d = node.depth
  | .items none vs, d, s, s' => vs = [] ∧ d = 0 ∧ s' = s
  | .items (some kind) vs, d, s, s' => Announces s.state.options.allowNonFinite kind (rest s) →
      ∃ (node : Node) (s₁ : Session Reader) (more : Items), NodeAt node s s₁ ∧ ItemsAt more s₁ s' ∧
        vs = node.value :: more.values ∧ d = max node.depth more.depth
  | .members none ms, d, s, s' => ms = [] ∧ d = 0 ∧ s' = s
  | .members (some token) ms, d, s, s' =>
      ∃ (w : Blanks) (node : Node) (s₁ s₂ : Session Reader) (more : Fields),
        Passes w.text s s₁ ∧ NodeAt node s₁ s₂ ∧ FieldsAt more s₂ s' ∧
        ms = (token.text s.state.source, node.value) :: more.members ∧
        d = max node.depth more.depth

/-- The key's text is what its literal means. -/
theorem text_of_passes {l : StringLiteral} {s s' : Session Reader} {back : Bytes}
    (h : Passes (l.text ++ back) s s') : (stringToken s l).text s'.state.source = l.toText := by
  rw [h.source_eq]
  have hr : rest s = l.text ++ (back ++ rest s') := by rw [h.rest_eq, List.append_assoc]
  exact text_stringToken hr

/-- Behind an opening bracket and its items stands an array. -/
theorem stands_array {next : Option Kind} {vs : List Value} {d : Nat} {s s₁ s' : Session Reader}
    (hopen : openArray s = (next, s₁)) (hs : s.failed = false) (hs₁ : s₁.failed = false)
    (ih : Stands (.items next vs) d s₁ s') :
    ∃ node : Node, NodeAt node s s' ∧ .array vs = node.value ∧ d + 1 = node.depth := by
  obtain ⟨⟨back, hr⟩, ⟨rfl, hclose⟩ | ⟨kind, rfl, hbegins⟩⟩ := (openArray_eq_iff hs).mp ⟨hopen, hs₁⟩
  · obtain ⟨rfl, rfl, rfl⟩ := ih
    obtain ⟨w, hw⟩ := mark_iff_passes.mp hclose
    exact ⟨.emptyArray w, ⟨hw.cons hr, trivial, trivial⟩, rfl, rfl⟩
  · obtain ⟨w, hw, ha⟩ := begins_iff_passes.mp hbegins
    obtain ⟨node, s₂, more, hnode, hmore, rfl, rfl⟩ := ih ha
    refine ⟨.array w node more, ⟨?_, trivial, ?_⟩, rfl, rfl⟩
    · exact (hw.append (hnode.passes.append hmore.passes)).cons hr
    · exact within_items hw.options_eq hnode hmore

/-- Behind an opening brace and its members stands an object. -/
theorem stands_object {next : Option StringToken} {ms : List Member} {d : Nat}
    {s s₁ s' : Session Reader} (hopen : openObject s = (next, s₁)) (hs : s.failed = false)
    (hs₁ : s₁.failed = false) (ih : Stands (.members next ms) d s₁ s') :
    ∃ node : Node, NodeAt node s s' ∧ .object (Members.ofList ms) = node.value ∧
      d + 1 = node.depth := by
  obtain ⟨⟨back, hr⟩, ⟨rfl, hclose⟩ | ⟨l, token, rfl, hkey⟩⟩ :=
    (openObject_eq_iff hs).mp ⟨hopen, hs₁⟩
  · obtain ⟨rfl, rfl, rfl⟩ := ih
    obtain ⟨w, hw⟩ := mark_iff_passes.mp hclose
    exact ⟨.emptyObject w, ⟨hw.cons hr, trivial, trivial⟩, rfl, rfl⟩
  · obtain ⟨w, w₁, s₂, hw, rfl, hl⟩ := key_iff_passes.mp hkey
    obtain ⟨w₂, node, s₃, s₄, more, hw₂, hnode, hmore, rfl, rfl⟩ := ih
    rw [text_of_passes hl]
    refine ⟨.object w l w₁ w₂ node more, ⟨?_, trivial, ?_⟩, rfl, rfl⟩
    · have hp := (hw.append (hl.append (hw₂.append (hnode.passes.append hmore.passes)))).cons hr
      simp only [List.append_assoc, List.singleton_append] at hp
      exact hp
    · have ho : s₃.state.options = s.state.options :=
        hw₂.options_eq.trans (hl.options_eq.trans hw.options_eq)
      exact within_fields ho hnode hmore

/-- One item and then the further ones are the items of an array. -/
theorem stands_item {kind : Kind} {v : Value} {next : Option Kind} {vs : List Value} {d d' : Nat}
    {s s₁ s₂ s' : Session Reader} (hs₁ : s₁.failed = false) (hnext : nextItem s₁ = (next, s₂))
    (hs₂ : s₂.failed = false) (ihValue : Stands (.value kind v) d s s₁)
    (ihItems : Stands (.items next vs) d' s₂ s') :
    Stands (.items (some kind) (v :: vs)) (max d d') s s' := by
  intro ha
  obtain ⟨node, hnode, rfl, rfl⟩ := ihValue ha
  rcases (nextItem_eq_iff hs₁).mp ⟨hnext, hs₂⟩ with ⟨rfl, hclose⟩ | ⟨kind', s₃, rfl, hcomma, hbegins⟩
  · obtain ⟨rfl, rfl, rfl⟩ := ihItems
    obtain ⟨w, hw⟩ := mark_iff_passes.mp hclose
    exact ⟨node, s₁, .close w, hnode, ⟨hw, trivial⟩, rfl, rfl⟩
  · obtain ⟨w, hw⟩ := mark_iff_passes.mp hcomma
    obtain ⟨w', hw', ha'⟩ := begins_iff_passes.mp hbegins
    obtain ⟨item, s₄, more, hitem, hmore, rfl, rfl⟩ := ihItems ha'
    refine ⟨node, s₁, .comma w w' item more, hnode, ⟨?_, ?_⟩, rfl, rfl⟩
    · have hp := hw.append (hw'.append (hitem.passes.append hmore.passes))
      simp only [List.append_assoc, List.singleton_append] at hp
      exact hp
    · exact within_items (hw'.options_eq.trans hw.options_eq) hitem hmore

/-- One member and then the further ones are the members of an object. -/
theorem stands_member {token : StringToken} {kind : Kind} {v : Value} {next : Option StringToken}
    {ms : List Member} {d d' : Nat} {s s₁ s₂ s₃ s' : Session Reader} (hs : s.failed = false)
    (hpeek : peek s = (kind, s₁)) (hs₁ : s₁.failed = false) (hs₂ : s₂.failed = false)
    (hnext : nextKey s₂ = (next, s₃)) (hs₃ : s₃.failed = false)
    (ihValue : Stands (.value kind v) d s₁ s₂) (ihMembers : Stands (.members next ms) d' s₃ s') :
    Stands (.members (some token) ((token.text s.state.source, v) :: ms)) (max d d') s s' := by
  obtain ⟨w, hw, ha⟩ := begins_iff_passes.mp ((peek_eq_iff hs).mp ⟨hpeek, hs₁⟩)
  obtain ⟨node, hnode, rfl, rfl⟩ := ihValue ha
  rcases (nextKey_eq_iff hs₂).mp ⟨hnext, hs₃⟩ with
    ⟨rfl, hclose⟩ | ⟨l, token', s₄, rfl, hcomma, hkey⟩
  · obtain ⟨rfl, rfl, rfl⟩ := ihMembers
    obtain ⟨w', hw'⟩ := mark_iff_passes.mp hclose
    exact ⟨w, node, s₁, s₂, .close w', hw, hnode, ⟨hw', trivial⟩, rfl, rfl⟩
  · obtain ⟨w', hw'⟩ := mark_iff_passes.mp hcomma
    obtain ⟨w₁, w₂, s₅, hw₁, rfl, hl⟩ := key_iff_passes.mp hkey
    obtain ⟨w₃, item, s₆, s₇, more, hw₃, hitem, hmore, rfl, rfl⟩ := ihMembers
    rw [text_of_passes hl]
    refine ⟨w, node, s₁, s₂, .comma w' w₁ l w₂ w₃ item more, hw, hnode, ⟨?_, ?_⟩, rfl, rfl⟩
    · have hp := hw'.append (hw₁.append (hl.append (hw₃.append (hitem.passes.append hmore.passes))))
      simp only [List.append_assoc, List.singleton_append] at hp
      exact hp
    · have ho : s₆.state.options = s₂.state.options :=
        hw₃.options_eq.trans (hl.options_eq.trans (hw₁.options_eq.trans hw'.options_eq))
      exact within_fields ho hitem hmore

/-- **What a reader hands out stands in the document.** -/
theorem stands_of_hands {part : Part} {d : Nat} {s s' : Session Reader}
    (h : Hands tokens part d s s') : s.failed = false → Stands part d s s' := by
  -- on what is handed out; a part is announced by what stands before it, so that comes as a
  -- hypothesis of what is to be shown
  induction h with
  | null hr hs' =>
      intro hs _
      obtain ⟨back, hrest, rfl⟩ := (readNull_eq_iff hs).mp ⟨hr, hs'⟩
      exact ⟨.null, ⟨.of_rest hrest, trivial, trivial⟩, rfl, rfl⟩
  | @boolean s s' kind b hk hr hs' =>
      intro hs _
      obtain ⟨-, back, hrest, rfl⟩ := (readBool_eq_iff hs).mp ⟨hr, hs'⟩
      exact ⟨.boolean b, ⟨.of_rest hrest, trivial, trivial⟩, rfl, rfl⟩
  | string hr hs' =>
      intro hs _
      obtain ⟨l, back, hrest, rfl, rfl⟩ := (readString_eq_iff hs).mp ⟨hr, hs'⟩
      refine ⟨.string l, ⟨.of_rest hrest, trivial, trivial⟩, ?_, rfl⟩
      exact congrArg Value.string (text_stringToken hrest)
  | integer hr hs' =>
      intro hs ha
      obtain ⟨n, hhere, hi, hn, rfl⟩ := (readInteger_eq_value_iff hs ha.stops).mp ⟨hr, hs'⟩
      rw [Numeral.toInt64?_eq n.proper.whole] at hn
      split at hn
      · next hfits =>
          refine ⟨.number n, nodeAt_number hhere ((if_pos hi).mpr hfits), ?_, rfl⟩
          rw [← Option.some.inj hn]
          exact (if_pos hi).symm
      · cases hn
  | floating hi hs₁ hr hs' =>
      intro hs ha
      obtain ⟨rfl, hnot⟩ := (readInteger_eq_notInteger_iff hs ha.stops).mp ⟨hi, hs₁⟩
      rcases (readFloat_eq_iff hs ha.stops).mp ⟨hr, hs'⟩ with
        ⟨hallow, word, back, hrest, rfl, rfl⟩ | ⟨n, hhere, rfl, hfinite, rfl⟩
      · exact ⟨.nonFinite word, ⟨.of_rest hrest, trivial, hallow⟩, rfl, rfl⟩
      · -- the number left for this is the one that was no integer
        have hfloat : n.numeral.isInteger = false := by
          rcases hnot with hword | ⟨n', hhere', hi'⟩
          · rw [not_atNonFinite hhere, Bool.and_false] at hword
            cases hword
          · rw [hhere.unique hhere']
            exact hi'
        have hne : ¬ n.numeral.isInteger = true := by simp [hfloat]
        exact ⟨.number n, nodeAt_number hhere ((if_neg hne).mpr hfinite), (if_neg hne).symm, rfl⟩
  | nonFinite hk hr hs' =>
      intro hs ha
      rcases (readFloat_eq_iff hs ha.stops).mp ⟨hr, hs'⟩ with
        ⟨hallow, word, back, hrest, rfl, rfl⟩ | ⟨n, hhere, -, -, -⟩
      · exact ⟨.nonFinite word, ⟨.of_rest hrest, trivial, hallow⟩, rfl, rfl⟩
      · -- a number begins with none of the letters of a word
        exfalso
        rcases exists_digit hhere with ⟨b, back, hrest, hb⟩ | ⟨b, back, hrest, hb⟩ <;>
          rw [hrest] at ha <;> rcases hk with rfl | rfl <;> cases ha <;> cases hb
  | array hopen hs₁ _ ih =>
      intro hs _
      exact stands_array hopen hs hs₁ (ih hs₁)
  | object hopen hs₁ _ ih =>
      intro hs _
      exact stands_object hopen hs hs₁ (ih hs₁)
  | itemsEnd s => exact fun _ => ⟨rfl, rfl, rfl⟩
  | item hv hnext hs₂ _ ihValue ihItems =>
      intro hs
      exact stands_item hv.value_ends hnext hs₂ (ihValue hs) (ihItems hs₂)
  | membersEnd s => exact fun _ => ⟨rfl, rfl, rfl⟩
  | member hpeek hs₁ hv hnext hs₃ _ ihValue ihMembers =>
      intro hs
      exact stands_member hs hpeek hs₁ hv.value_ends hnext hs₃ (ihValue hs₁) (ihMembers hs₃)

/-! ### What stands in the document is handed out -/

theorem not_isPart_of_isBlank : ∀ b : UInt8, isBlank b = true → Numeral.isPart b = false :=
  forall_byte (by decide)

theorem stops_isPart_blanks (w : Blanks) : Stops Numeral.isPart w.text := by
  cases hw : w.text with
  | nil => exact stops_nil _
  | cons b bs =>
      refine (stops_cons _ _ _).mpr (not_isPart_of_isBlank b (w.blank b ?_))
      rw [hw]
      exact List.mem_cons_self

/-- A number ends before blanks, and before a mark behind them. -/
theorem stops_blanks (w : Blanks) {mark : UInt8} (hm : Numeral.isPart mark = false) (back : Bytes) :
    Stops Numeral.isPart (w.text ++ mark :: back) :=
  stops_append (stops_isPart_blanks w) ((stops_cons _ _ _).mpr hm)

/-- A value that no part of a number follows ends. -/
theorem endsBefore_of_stops {back : Bytes} (node : Node) (h : Stops Numeral.isPart back) :
    node.EndsBefore back := by
  cases node with
  | number n => exact n.numeral.endsBefore_nil.append h
  | _ => trivial

/-- A value in an array or object cannot be joined to what follows it there. -/
theorem endsBefore_items {more : Items} {s s' : Session Reader} (h : Passes more.text s s')
    (node : Node) : node.EndsBefore (rest s) := by
  refine endsBefore_of_stops node ?_
  rw [h.rest_eq]
  cases more with
  | close w | comma w _ _ _ =>
      simp only [Items.text, List.append_assoc, List.cons_append]
      exact stops_blanks w (by decide) _

/-- Every value ends before further members. -/
theorem endsBefore_fields {more : Fields} {s s' : Session Reader} (h : Passes more.text s s')
    (node : Node) : node.EndsBefore (rest s) := by
  refine endsBefore_of_stops node ?_
  rw [h.rest_eq]
  cases more with
  | close w | comma w _ _ _ _ _ _ =>
      simp only [Fields.text, List.append_assoc, List.cons_append]
      exact stops_blanks w (by decide) _

/-- The value is announced and handed out. -/
def Offers (node : Node) (s s' : Session Reader) : Prop :=
  ∃ kind, Announces s.state.options.allowNonFinite kind (rest s) ∧
    Hands tokens (.value kind node.value) node.depth s s'

theorem offers_word {node : Node} {kind : Kind} {s s' : Session Reader} {back : Bytes}
    (ha : ∀ allow, Announces allow kind (node.text ++ back)) (hr : rest s = node.text ++ back)
    (h : Hands tokens (.value kind node.value) node.depth s s') : Offers node s s' := by
  refine ⟨kind, ?_, h⟩
  rw [hr]
  exact ha _

/-- A number announces itself. -/
theorem announces_number {n : NumberLiteral} {s : Session Reader} (h : NumberHere n s)
    (allow : Bool) : Announces allow .number (rest s) := by
  rcases exists_digit h with ⟨b, back, hr, hb⟩ | ⟨b, back, hr, hb⟩
  · rw [hr]
    exact .digit back hb
  · rw [hr]
    exact .minus back hb

/-- A number is handed out where it stands. -/
theorem offers_number {n : NumberLiteral} {s s' : Session Reader} (hs : s.failed = false)
    (h : NodeAt (.number n) s s') : Offers (.number n) s s' := by
  obtain ⟨hp, hends, hw⟩ := h
  obtain rfl : s' = skip s n.text.length := hp.behind
  have hhere : NumberHere n s := numberHere_iff.mpr ⟨hp, hends⟩
  have ha := announces_number hhere s.state.options.allowNonFinite
  refine ⟨.number, ha, ?_⟩
  change Hands tokens (.value .number n.value) 0 s _
  rw [NumberLiteral.value]
  by_cases hi : n.numeral.isInteger = true
  · have hfits : Numeral.Fits n.numeral.toInt := (if_pos hi).mp hw
    have hr : readInteger s = (.value (Int64.ofInt n.numeral.toInt), skip s n.text.length) := by
      rw [readInteger_of_numberHere hhere, if_pos hi, Numeral.toInt64?_eq n.proper.whole,
        if_pos hfits]
    rw [if_pos hi]
    exact .integer hr hs
  · have hfinite : n.nearest.isFinite = true := (if_neg hi).mp hw
    have hr : readInteger s = (.notInteger, s) := by
      rw [readInteger_of_numberHere hhere, if_neg hi]
    have hr' : readFloat s = (n.nearest, skip s n.text.length) := by
      rw [readFloat_of_numberHere hhere, if_pos hfinite]
    rw [if_neg hi]
    exact .floating hr hs hr' hs

/-- A word for a float is handed out where it stands. -/
theorem offers_nonFinite {word : NonFinite} {s s' : Session Reader} (hs : s.failed = false)
    (h : NodeAt (.nonFinite word) s s') : Offers (.nonFinite word) s s' := by
  obtain ⟨hp, -, hallow⟩ := h
  obtain rfl : s' = skip s word.text.length := hp.behind
  have hrest : rest s = word.text ++ rest (skip s word.text.length) := hp.rest_eq
  have hread := readFloat_of_wordHere hallow hrest
  cases word with
  | nan =>
      have ha : Announces s.state.options.allowNonFinite .nan (rest s) := by
        rw [hrest]
        exact .nan _ hallow
      exact ⟨.nan, ha, .nonFinite (.inr rfl) hread hs⟩
  | infinity =>
      have ha : Announces s.state.options.allowNonFinite .infinity (rest s) := by
        rw [hrest]
        exact .infinity _ hallow
      exact ⟨.infinity, ha, .nonFinite (.inl rfl) hread hs⟩
  | negativeInfinity =>
      -- the minus sign announces a number, so this word is found only after an integer is not
      have ha : Announces s.state.options.allowNonFinite .number (rest s) := by
        rw [hrest]
        exact .minusInfinity _ hallow
      exact ⟨.number, ha, .floating (readInteger_of_wordHere hallow hrest) hs hread hs⟩

/-- The rest of an array is gone through. -/
def ItemsOffered (more : Items) (s s' : Session Reader) : Prop :=
  ∃ next s₁, nextItem s = (next, s₁) ∧ s₁.failed = false ∧
    Hands tokens (.items next more.values) more.depth s₁ s'

/-- The rest of an object is gone through. -/
def FieldsOffered (more : Fields) (s s' : Session Reader) : Prop :=
  ∃ next s₁, nextKey s = (next, s₁) ∧ s₁.failed = false ∧
    Hands tokens (.members next more.members) more.depth s₁ s'

/-- An item is announced and handed out together with those behind it. -/
theorem hands_items {node : Node} {more : Items} {s s' : Session Reader} (hs : s.failed = false)
    (hp : Passes (node.text ++ more.text) s s')
    (hin : node.Within s.state.options.allowNonFinite)
    (hin' : more.Within s.state.options.allowNonFinite)
    (ihNode : ∀ {s s'}, s.failed = false → NodeAt node s s' → Offers node s s')
    (ihMore : ∀ {s s'}, s.failed = false → ItemsAt more s s' → ItemsOffered more s s') :
    ∃ kind, Announces s.state.options.allowNonFinite kind (rest s) ∧
      Hands tokens (.items (some kind) (node.value :: more.values)) (max node.depth more.depth)
        s s' := by
  obtain ⟨s₁, hnode, hmore⟩ := hp.split
  rw [← hnode.options_eq] at hin'
  obtain ⟨kind, ha, hands⟩ := ihNode hs ⟨hnode, endsBefore_items hmore node, hin⟩
  obtain ⟨next, s₂, hnext, hs₂, hands'⟩ := ihMore (hnode.failed_eq.trans hs) ⟨hmore, hin'⟩
  exact ⟨kind, ha, .item hands hnext hs₂ hands'⟩

/-- A member is gone through, once its key has been read, together with those behind it. -/
theorem hands_members {l : StringLiteral} {w w₁ : Blanks} {node : Node} {more : Fields}
    {s s' : Session Reader} (hs : s.failed = false)
    (hp : Passes (l.text ++ (w.text ++ colon :: (w₁.text ++ (node.text ++ more.text)))) s s')
    (hin : node.Within s.state.options.allowNonFinite)
    (hin' : more.Within s.state.options.allowNonFinite)
    (ihNode : ∀ {s s'}, s.failed = false → NodeAt node s s' → Offers node s s')
    (ihMore : ∀ {s s'}, s.failed = false → FieldsAt more s s' → FieldsOffered more s s') :
    ∃ s₁, Passes (l.text ++ (w.text ++ [colon])) s s₁ ∧
      Hands tokens (.members (some (stringToken s l)) ((l.toText, node.value) :: more.members))
        (max node.depth more.depth) s₁ s' := by
  rw [← List.append_assoc] at hp
  obtain ⟨s₁, hl, hp⟩ := hp.split_mark
  rw [List.append_assoc] at hl
  obtain ⟨s₂, hw₁, hp⟩ := hp.split
  obtain ⟨s₃, hnode, hmore⟩ := hp.split
  have hs₁ : s₁.failed = false := hl.failed_eq.trans hs
  have ho : s₂.state.options = s.state.options := hw₁.options_eq.trans hl.options_eq
  rw [← ho] at hin hin'
  rw [← hnode.options_eq] at hin'
  obtain ⟨kind, ha, hands⟩ := ihNode (hw₁.failed_eq.trans hs₁)
    ⟨hnode, endsBefore_fields hmore node, hin⟩
  obtain ⟨next, s₄, hnext, hs₄, hands'⟩ := ihMore
    (hnode.failed_eq.trans (hw₁.failed_eq.trans hs₁)) ⟨hmore, hin'⟩
  obtain ⟨hpeek, hs₂⟩ := (peek_eq_iff hs₁).mpr (begins_iff_passes.mpr ⟨w₁, hw₁, ha⟩)
  refine ⟨s₁, hl, ?_⟩
  rw [← text_of_passes hl]
  exact .member hpeek hs₂ hands hnext hs₄ hands'

mutual

/-- **A value that stands in the document is handed out.** -/
theorem offers {s s' : Session Reader} (hs : s.failed = false) :
    ∀ {node : Node}, NodeAt node s s' → Offers node s s'
  | .null, ⟨hp, _, _⟩ => by
      obtain ⟨hr, hs'⟩ := (readNull_eq_iff hs).mpr ⟨_, hp.rest_eq, hp.behind⟩
      exact offers_word (fun _ => .null _) hp.rest_eq (.null hr hs')
  | .boolean true, ⟨hp, _, _⟩ => by
      have hb : true = (Kind.true == .true) := rfl
      obtain ⟨hr, hs'⟩ := (readBool_eq_iff hs).mpr ⟨hb, _, hp.rest_eq, hp.behind⟩
      exact offers_word (fun _ => .true _) hp.rest_eq (.boolean (.inl rfl) hr hs')
  | .boolean false, ⟨hp, _, _⟩ => by
      have hb : false = (Kind.false == .true) := rfl
      obtain ⟨hr, hs'⟩ := (readBool_eq_iff hs).mpr ⟨hb, _, hp.rest_eq, hp.behind⟩
      exact offers_word (fun _ => .false _) hp.rest_eq (.boolean (.inr rfl) hr hs')
  | .number _, h => offers_number hs h
  | .nonFinite _, h => offers_nonFinite hs h
  | .string l, ⟨hp, _, _⟩ => by
      have hrest : rest s = l.text ++ rest s' := hp.rest_eq
      obtain ⟨hr, hs'⟩ := (readString_eq_iff hs).mpr ⟨l, _, hrest, rfl, hp.behind⟩
      have hands : Hands tokens _ 0 s s' := .string hr hs'
      have htext : (stringToken s l).text (tokens.document s'.state) = l.toText := by
        change (stringToken s l).text s'.state.source = _
        rw [hp.source_eq, text_stringToken hrest]
      rw [htext] at hands
      exact offers_word (fun _ => .string _) hp.rest_eq hands
  | .emptyArray w, ⟨hp, _, _⟩ => by
      obtain ⟨hrest, hclose⟩ := hp.uncons
      obtain ⟨hopen, hs'⟩ := (openArray_eq_iff hs).mpr
        ⟨⟨_, hrest⟩, .inl ⟨rfl, mark_iff_passes.mpr ⟨w, hclose⟩⟩⟩
      exact offers_word (fun _ => .array _) hp.rest_eq (.array hopen hs' (.itemsEnd s'))
  | .array w first more, ⟨hp, _, hfirst, hmore⟩ => by
      obtain ⟨hrest, htail⟩ := hp.uncons
      obtain ⟨s₁, hw, htail⟩ := htail.split
      have ho : s₁.state.options = s.state.options := hw.options_eq
      obtain ⟨kind, ha, hands⟩ := hands_items (hw.failed_eq.trans hs) htail (ho ▸ hfirst)
        (ho ▸ hmore) (fun hs => offers hs) (fun hs => offers_items hs)
      obtain ⟨hopen, hs₁⟩ := (openArray_eq_iff hs).mpr
        ⟨⟨_, hrest⟩, .inr ⟨kind, rfl, begins_iff_passes.mpr ⟨w, hw, ha⟩⟩⟩
      exact offers_word (fun _ => .array _) hp.rest_eq (.array hopen hs₁ hands)
  | .emptyObject w, ⟨hp, _, _⟩ => by
      obtain ⟨hrest, hclose⟩ := hp.uncons
      obtain ⟨hopen, hs'⟩ := (openObject_eq_iff hs).mpr
        ⟨⟨_, hrest⟩, .inl ⟨rfl, mark_iff_passes.mpr ⟨w, hclose⟩⟩⟩
      exact offers_word (fun _ => .object _) hp.rest_eq (.object hopen hs' (.membersEnd s'))
  | .object w key w₁ w₂ first more, ⟨hp, _, hfirst, hmore⟩ => by
      obtain ⟨hrest, htail⟩ := hp.uncons
      obtain ⟨s₁, hw, htail⟩ := htail.split
      have ho : s₁.state.options = s.state.options := hw.options_eq
      obtain ⟨s₂, hkey, hands⟩ := hands_members (hw.failed_eq.trans hs) htail (ho ▸ hfirst)
        (ho ▸ hmore) (fun hs => offers hs) (fun hs => offers_fields hs)
      obtain ⟨hopen, hs₂⟩ := (openObject_eq_iff hs).mpr
        ⟨⟨_, hrest⟩, .inr ⟨key, _, rfl, key_iff_passes.mpr ⟨w, w₁, s₁, hw, rfl, hkey⟩⟩⟩
      exact offers_word (fun _ => .object _) hp.rest_eq (.object hopen hs₂ hands)

/-- The rest of an array that stands in the document is gone through. -/
theorem offers_items {s s' : Session Reader} (hs : s.failed = false) :
    ∀ {more : Items}, ItemsAt more s s' → ItemsOffered more s s'
  | .close w, ⟨hp, _⟩ => by
      obtain ⟨hnext, hs'⟩ := (nextItem_eq_iff hs).mpr (.inl ⟨rfl, mark_iff_passes.mpr ⟨w, hp⟩⟩)
      exact ⟨none, s', hnext, hs', .itemsEnd s'⟩
  | .comma w w' item more, ⟨hp, hitem, hmore⟩ => by
      obtain ⟨s₁, hcomma, htail⟩ := hp.split_mark
      obtain ⟨s₂, hw', htail⟩ := htail.split
      have ho : s₂.state.options = s.state.options := hw'.options_eq.trans hcomma.options_eq
      obtain ⟨kind, ha, hands⟩ := hands_items (hw'.failed_eq.trans (hcomma.failed_eq.trans hs))
        htail (ho ▸ hitem) (ho ▸ hmore) (fun hs => offers hs) (fun hs => offers_items hs)
      obtain ⟨hnext, hs₂⟩ := (nextItem_eq_iff hs).mpr (.inr ⟨kind, s₁, rfl,
        mark_iff_passes.mpr ⟨w, hcomma⟩, begins_iff_passes.mpr ⟨w', hw', ha⟩⟩)
      exact ⟨some kind, s₂, hnext, hs₂, hands⟩

/-- The rest of an object that stands in the document is gone through. -/
theorem offers_fields {s s' : Session Reader} (hs : s.failed = false) :
    ∀ {more : Fields}, FieldsAt more s s' → FieldsOffered more s s'
  | .close w, ⟨hp, _⟩ => by
      obtain ⟨hnext, hs'⟩ := (nextKey_eq_iff hs).mpr (.inl ⟨rfl, mark_iff_passes.mpr ⟨w, hp⟩⟩)
      exact ⟨none, s', hnext, hs', .membersEnd s'⟩
  | .comma w w' key w₁ w₂ item more, ⟨hp, hitem, hmore⟩ => by
      obtain ⟨s₁, hcomma, htail⟩ := hp.split_mark
      obtain ⟨s₂, hw', htail⟩ := htail.split
      have ho : s₂.state.options = s.state.options := hw'.options_eq.trans hcomma.options_eq
      obtain ⟨s₃, hkey, hands⟩ := hands_members (hw'.failed_eq.trans (hcomma.failed_eq.trans hs))
        htail (ho ▸ hitem) (ho ▸ hmore) (fun hs => offers hs) (fun hs => offers_fields hs)
      obtain ⟨hnext, hs₃⟩ := (nextKey_eq_iff hs).mpr (.inr ⟨key, _, s₁, rfl,
        mark_iff_passes.mpr ⟨w, hcomma⟩, key_iff_passes.mpr ⟨w', w₁, s₂, hw', rfl, hkey⟩⟩)
      exact ⟨some _, s₃, hnext, hs₃, hands⟩

end

/-! ### Whole documents -/

/-- **A value is built from a reader exactly when one stands behind the blanks.** -/
theorem build_eq_iff {limit : Nat} {v : Value} {s s' : Session Reader} (hs : s.failed = false) :
    build limit s = (v, s') ∧ s'.failed = false ↔
      ∃ (w : Blanks) (node : Node) (s₁ : Session Reader), Passes w.text s s₁ ∧ NodeAt node s₁ s' ∧
        node.depth ≤ limit ∧ v = node.value := by
  rw [build, bounded.build_eq_iff]
  constructor
  · rintro ⟨d, ⟨kind, s₁, hpeek, hs₁, hands⟩, hd⟩
    obtain ⟨w, hw, ha⟩ := begins_iff_passes.mp ((peek_eq_iff hs).mp ⟨hpeek, hs₁⟩)
    obtain ⟨node, hnode, rfl, rfl⟩ := stands_of_hands hands hs₁ ha
    exact ⟨w, node, s₁, hw, hnode, hd, rfl⟩
  · rintro ⟨w, node, s₁, hw, hnode, hd, rfl⟩
    have hs₁ : s₁.failed = false := hw.failed_eq.trans hs
    obtain ⟨kind, ha, hands⟩ := offers hs₁ hnode
    obtain ⟨hpeek, -⟩ := (peek_eq_iff hs).mpr (begins_iff_passes.mpr ⟨w, hw, ha⟩)
    exact ⟨node.depth, ⟨kind, s₁, hpeek, hs₁, hands⟩, hd⟩

/-- Where a value stands behind blanks it is built, and the cursor is left behind it. -/
theorem build_derivation {d : Derivation} {limit : Nat} {s : Session Reader} {back : Bytes}
    (hs : s.failed = false) (hr : rest s = d.before.text ++ (d.root.text ++ back))
    (hends : d.root.EndsBefore back) (hin : d.root.Within s.state.options.allowNonFinite)
    (hdepth : d.root.depth ≤ limit) :
    ∃ s', build limit s = (d.value, s') ∧ Passes (d.before.text ++ d.root.text) s s' := by
  have hall : Passes (d.before.text ++ d.root.text) s
      (skip s (d.before.text ++ d.root.text).length) :=
    .of_rest (by rw [hr, List.append_assoc])
  obtain ⟨s₁, hbefore, hroot⟩ := hall.split
  have hback : rest (skip s (d.before.text ++ d.root.text).length) = back :=
    rest_skip (by rw [hr, List.append_assoc])
  have hnode : NodeAt d.root s₁ (skip s (d.before.text ++ d.root.text).length) :=
    ⟨hroot, hback ▸ hends, hbefore.options_eq.symm ▸ hin⟩
  exact ⟨_, ((build_eq_iff hs).mpr ⟨d.before, d.root, s₁, hbefore, hnode, hdepth, rfl⟩).1, hall⟩

/-- The cursor of a reader does not leave the document. -/
theorem Passes.position_le {front : Bytes} {s s' : Session Reader} (h : Passes front s s')
    (hs : s.state.position ≤ s.state.source.size) : s'.state.position ≤ s'.state.source.size := by
  have hlen := congrArg List.length h.rest_eq
  rw [rest, Slice.length_rest, List.length_append] at hlen
  rw [h.source_eq, h.behind]
  change s.state.position + front.length ≤ _
  omega

/-- Nothing is left exactly at the end of the document. -/
theorem rest_eq_nil_iff {s : Session Reader} (hs : s.state.position ≤ s.state.source.size) :
    rest s = [] ↔ s.state.position = s.state.source.size := by
  rw [← List.length_eq_zero_iff, rest, Slice.length_rest]
  omega

/-- **The document may end** when nothing but blanks follows, or anything may follow. -/
theorem finish_eq_iff {s s' : Session Reader}
    (hpos : s.state.position ≤ s.state.source.size) :
    finish s = (true, s') ↔
      ∃ w : Blanks, Passes w.text s s' ∧ Stops isBlank (rest s') ∧
        (s.state.options.requireEnd = true → rest s' = []) := by
  obtain ⟨w, back, hr, hstops, hskip⟩ := exists_skipBlank s
  have hw : Passes w.text s (skip s w.text.length) := .of_rest hr
  have hback : rest (skip s w.text.length) = back := rest_skip hr
  have hend := rest_eq_nil_iff (hw.position_le hpos)
  rw [finish, hskip]
  constructor
  · intro h
    split at h
    · cases (Prod.mk.inj h).1
    · next hno =>
        obtain rfl := (Prod.mk.inj h).2
        refine ⟨w, hw, hback ▸ hstops, fun hreq => hend.mpr ?_⟩
        simpa [hreq] using hno
  · rintro ⟨w', hw', hstops', hreq⟩
    obtain rfl : s' = skip s w.text.length := by
      rw [← hskip, skipBlank_eq w' hw'.rest_eq hstops']
      exact hw'.behind
    rw [if_neg]
    intro hc
    obtain ⟨hr', hne⟩ := Bool.and_eq_true_iff.mp hc
    exact bne_iff_ne.mp hne (hend.mp (hreq hr'))

/-- What must not end there is an error. -/
theorem finish_ne_false {s s' : Session Reader} (h : s'.fault = none) : finish s ≠ (false, s') := by
  intro hfinish
  rw [finish] at hfinish
  split at hfinish
  · obtain ⟨-, rfl⟩ := Prod.mk.inj hfinish
    have hfailed := failed_failHere (skipBlank s) .trailingCharacters
    rw [Session.failed, h] at hfailed
    cases hfailed
  · cases (Prod.mk.inj hfinish).1

end Reader

/-- **A document is read exactly when a derivation stands at its front**: what is asked for is kept
to, what follows the derivation can neither be joined to its value nor is blank, and nothing follows
it when that is asked for. -/
theorem parse_eq_ok_iff {source : Slice} {options : ReadOptions} {v : Value} :
    parse source options = ⟨v, none⟩ ↔
      ∃ (d : Derivation) (back : Bytes), source.bytes = d.text ++ back ∧
        d.root.EndsBefore (d.after.text ++ back) ∧ Stops isBlank back ∧
        (options.requireEnd = true → back = []) ∧ d.Within options ∧ d.value = v := by
  have hs : (start source options).failed = false := rfl
  have hpos : (start source options).state.position ≤ (start source options).state.source.size :=
    Nat.zero_le _
  have hrest := rest_start source options
  rw [parse]
  constructor
  · intro h
    rcases hbuild : build options.maxDepth (start source options) with ⟨w, s⟩
    rw [hbuild] at h
    dsimp only at h
    split at h
    · next hf =>
        obtain ⟨-, hnone⟩ := Parsed.mk.inj h
        rw [Session.failed, hnone] at hf
        cases hf
    next hf =>
      rw [Bool.not_eq_true] at hf
      obtain ⟨before, root, s₁, hbefore, hroot, hdepth, rfl⟩ := (build_eq_iff hs).mp ⟨hbuild, hf⟩
      rcases hfinish : finish s with ⟨ended, s'⟩
      rw [hfinish] at h
      have hpos' := hroot.passes.position_le (hbefore.position_le hpos)
      cases ended with
      | false =>
          obtain ⟨-, hnone⟩ := Parsed.mk.inj h
          exact absurd hfinish (finish_ne_false hnone)
      | true =>
          obtain ⟨rfl, -⟩ := Parsed.mk.inj h
          obtain ⟨after, hafter, hstops, hreq⟩ := (finish_eq_iff hpos').mp hfinish
          have ho : s₁.state.options = options := hbefore.options_eq
          have ho' : s.state.options = options := hroot.passes.options_eq.trans ho
          refine ⟨⟨before, root, after⟩, rest s', ?_, ?_, hstops, ho' ▸ hreq,
            ⟨ho ▸ hroot.within, hdepth⟩, rfl⟩
          · rw [← hrest, hbefore.rest_eq, hroot.passes.rest_eq, hafter.rest_eq, Derivation.text]
            simp only [List.append_assoc]
          · rw [← hafter.rest_eq]
            exact hroot.ends
  · rintro ⟨d, back, hbytes, hends, hstops, hreq, hwithin, rfl⟩
    have hr : rest (start source options) =
        d.before.text ++ (d.root.text ++ (d.after.text ++ back)) := by
      rw [hrest, hbytes, Derivation.text]
      simp only [List.append_assoc]
    -- the value is built up to the blanks behind it, and then the reader is done
    obtain ⟨s₁, hbuild, hfront⟩ := build_derivation hs hr hends hwithin.numbers hwithin.depth
    have hr₁ : rest s₁ = d.after.text ++ back := by
      rw [hfront.behind]
      exact rest_skip (by rw [hr, List.append_assoc])
    have hback : rest (skip s₁ d.after.text.length) = back := rest_skip hr₁
    have ho : s₁.state.options = options := hfront.options_eq
    have hfinish := (finish_eq_iff (hfront.position_le hpos)).mpr
      ⟨d.after, .of_rest hr₁, hback.symm ▸ hstops, by rw [ho, hback]; exact hreq⟩
    rw [hbuild]
    dsimp only
    rw [if_neg (by simp [hfront.failed_eq, hs]), hfinish]
    have hf : (skip s₁ d.after.text.length).fault = none :=
      congrArg Session.fault hfront.behind
    exact congrArg (Parsed.mk d.value) hf

/-- **A whole document is accepted exactly when it has a derivation** that keeps to what is asked
for, and the value is what the derivation means. -/
theorem parse_eq_iff_exists_derivation (source : Slice) (maxDepth : Nat) (allowNonFinite : Bool)
    (v : Value) :
    parse source ⟨maxDepth, true, allowNonFinite⟩ = ⟨v, none⟩ ↔
      ∃ d : Derivation, source.bytes = d.text ∧ d.Within ⟨maxDepth, true, allowNonFinite⟩ ∧
        d.value = v := by
  rw [parse_eq_ok_iff]
  constructor
  · rintro ⟨d, back, hbytes, -, -, hreq, hwithin, hv⟩
    obtain rfl := hreq rfl
    exact ⟨d, hbytes.trans (List.append_nil _), hwithin, hv⟩
  · rintro ⟨d, hbytes, hwithin, hv⟩
    refine ⟨d, [], hbytes.trans (List.append_nil _).symm, ?_, stops_nil _, fun _ => rfl,
      hwithin, hv⟩
    rw [List.append_nil]
    -- with nothing but blanks behind a number, none of what follows could belong to it
    exact endsBefore_of_stops d.root (stops_isPart_blanks d.after)

end JsonTree
