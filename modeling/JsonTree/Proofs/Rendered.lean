import JsonTree.Proofs.RoundTrip
import JsonTree.Proofs.Texts

/-!
# Rendered — what stands where a value has been written

Nothing but the value can be read where it has been written.  A byte of a written string is escaped
or not by what it is, so a string literal that stands there holds the same bytes
(`Write.eq_of_literal`).  A scalar is told by its first byte and ends where no byte can go on
(`Node.eq_of_append`), and an array or object is told mark by mark, the blanks between the marks
being all that the layout puts there.

* `Node.Rereads`: what stands there as a value has the depth of the value that was written, the same
  strings and keys as they are read, and texts and numbers that could be written.
* `Value.Recovered`: whatever stands as a value where this one has been written rereads it.
* `recovered`: by induction over the value, for every value whose keys are distinct.
-/

namespace JsonTree

open Ascii Bytes

/-- The text that is read where a string has been written: a view, unless some byte of it has to be
escaped. -/
def Text.asRead (t : Text) : Text :=
  ⟨t.bytes, !t.bytes.any mustEscape⟩

namespace Write

/-! ### Strings -/

/-- What is escaped is written with a backslash first. -/
theorem head?_escaped : ∀ b : UInt8, mustEscape b = true → (escaped b).head? = some backslash :=
  forall_byte (by decide)

/-- Only bytes of ASCII have to be escaped. -/
theorem le_of_mustEscape : ∀ b : UInt8, mustEscape b = true → b ≤ 0x7F :=
  forall_byte (by decide)

/-- The quote and the backslash have to be escaped. -/
theorem ne_of_not_mustEscape : ∀ b : UInt8, mustEscape b = false → b ≠ quote ∧ b ≠ backslash :=
  forall_byte (by decide)

theorem exists_escaped {b : UInt8} (h : mustEscape b = true) : ∃ rest, escaped b = backslash :: rest :=
  List.head?_eq_some_iff.mp (head?_escaped b h)

/-- A byte that has to be escaped is. -/
theorem escape_escaped {b : UInt8} (h : mustEscape b = true) : Piece.Escape ⟨escaped b, [b]⟩ := by
  obtain ⟨rest, hrest⟩ := exists_escaped h
  refine (legal_escaped (le_of_mustEscape b h)).resolve_left fun hplain => ?_
  refine Literal.notMem_text_of_plain hplain ?_
  rw [hrest]
  exact List.mem_cons_self

/-- A backslash is written exactly where a byte has to be escaped. -/
theorem contains_backslash_escaped (bs : Bytes) :
    (bs.flatMap escaped).contains backslash = bs.any mustEscape := by
  rw [Bool.eq_iff_iff, List.contains_iff_mem, List.mem_flatMap, List.any_eq_true]
  refine exists_congr fun b => and_congr_right fun _ => ?_
  constructor
  · intro hmem
    by_contra hb
    rw [Bool.not_eq_true] at hb
    rw [escaped_of_not_mustEscape b hb, List.mem_singleton] at hmem
    exact (ne_of_not_mustEscape b hb).2 hmem.symm
  · intro hb
    obtain ⟨rest, hrest⟩ := exists_escaped hb
    rw [hrest]
    exact List.mem_cons_self

/-- At one place there is at most one escape. -/
theorem escape_eq_of_append {text text' cs cs' back back' : Bytes} (hp : Piece.Escape ⟨text, cs⟩)
    (hq : Piece.Escape ⟨text', cs'⟩) (h : text ++ back = text' ++ back') :
    text = text' ∧ cs = cs' ∧ back = back' := by
  have hbytes := Slice.bytes_ofBytes 0 (text ++ back)
  have hr : (Slice.ofBytes 0 (text ++ back)).rest 0 = text ++ back :=
    (Slice.rest_zero _).trans hbytes
  obtain ⟨tail, ht⟩ := Literal.exists_text_of_escape hp
  have hi : (Slice.ofBytes 0 (text ++ back)).get? 0 = some backslash := by
    rw [Slice.get?_eq_head?, hr, show text = backslash :: tail from ht]
    rfl
  have hone : Literal.escape _ 0 0 = .ok (cs, 0 + text.length) :=
    (Literal.escape_eq_ok_iff hi).mpr ⟨text, back, hp, hr, rfl⟩
  have htwo : Literal.escape _ 0 0 = .ok (cs', 0 + text'.length) :=
    (Literal.escape_eq_ok_iff hi).mpr ⟨text', back', hq, hr.trans h, rfl⟩
  obtain ⟨rfl, hlen⟩ := Prod.mk.inj (Except.ok.inj (hone.symm.trans htwo))
  obtain ⟨rfl, rfl⟩ := List.append_inj h (by omega)
  exact ⟨rfl, rfl, rfl⟩

/-- What holds neither a quote nor a backslash stands in a written string only as itself. -/
theorem exists_of_unescaped {c : Bytes} (hc : ∀ b ∈ c, b ≠ quote ∧ b ≠ backslash) :
    ∀ {bs tail back : Bytes}, bs.flatMap escaped ++ quote :: tail = c ++ back →
      ∃ bs', bs = c ++ bs' ∧ bs'.flatMap escaped ++ quote :: tail = back := by
  induction c with
  | nil => exact fun h => ⟨_, rfl, h⟩
  | cons b c ih =>
      intro bs tail back h
      rw [List.forall_mem_cons] at hc
      cases bs with
      | nil => exact absurd (List.cons.inj h).1.symm hc.1.1
      | cons b' bs =>
          rw [List.flatMap_cons] at h
          cases hb' : mustEscape b' with
          | true =>
              obtain ⟨rest, hrest⟩ := exists_escaped hb'
              rw [hrest] at h
              exact absurd (List.cons.inj h).1.symm hc.1.2
          | false =>
              rw [escaped_of_not_mustEscape b' hb', List.append_assoc] at h
              obtain ⟨rfl, h'⟩ := List.cons.inj h
              obtain ⟨bs', rfl, hback⟩ := ih hc.2 h'
              exact ⟨bs', rfl, hback⟩

/-- An escape stands in a written string only where its byte has to be escaped. -/
theorem exists_of_escape {text cs : Bytes} (hp : Piece.Escape ⟨text, cs⟩) {bs tail back : Bytes}
    (h : bs.flatMap escaped ++ quote :: tail = text ++ back) :
    ∃ b bs', b ≤ 0x7F ∧ cs = [b] ∧ bs = b :: bs' ∧
      bs'.flatMap escaped ++ quote :: tail = back := by
  obtain ⟨rest, hrest⟩ := Literal.exists_text_of_escape hp
  have htext : text = backslash :: rest := hrest
  cases bs with
  | nil =>
      rw [htext] at h
      exact absurd (List.cons.inj h).1 (by decide)
  | cons b bs =>
      rw [List.flatMap_cons, List.append_assoc] at h
      cases hb : mustEscape b with
      | true =>
          obtain ⟨rfl, rfl, hback⟩ := escape_eq_of_append (escape_escaped hb) hp h
          exact ⟨b, bs, le_of_mustEscape b hb, rfl, rfl, hback⟩
      | false =>
          rw [escaped_of_not_mustEscape b hb, htext] at h
          exact absurd (List.cons.inj h).1 (ne_of_not_mustEscape b hb).2

theorem ne_of_isPlain : ∀ b : UInt8, isPlain b = true → b ≠ quote ∧ b ≠ backslash :=
  forall_byte (by decide)

theorem ne_of_beyond_ascii : ∀ b : UInt8, 0x80 ≤ b → b ≠ quote ∧ b ≠ backslash :=
  forall_byte (by decide)

/-- A plain character has neither a quote nor a backslash. -/
theorem unescaped_of_plain {p : Piece} (h : p.Plain) : ∀ b ∈ p.text, b ≠ quote ∧ b ≠ backslash := by
  rcases Literal.plain_cases h with ⟨b, rfl, hb⟩ | ⟨b, rest, n, rfl, hb, he⟩
  · exact List.forall_mem_singleton.mpr (ne_of_isPlain b hb)
  · exact fun c hc => ne_of_beyond_ascii c (he.beyond_ascii (Literal.le_of_encodes he hb) c hc)

/-- **Where a string has been written, a literal is that string**, which is well formed then. -/
theorem eq_of_pieces {ps : List Piece} (hps : ∀ p ∈ ps, p.Legal) : ∀ {bs tail back : Bytes},
    bs.flatMap escaped ++ quote :: tail = Pieces.text ps ++ quote :: back →
      Utf8.WellFormed bs ∧ Pieces.bytes ps = bs ∧ tail = back := by
  induction ps with
  | nil =>
      intro bs tail back h
      cases bs with
      | nil => exact ⟨.nil, rfl, (List.cons.inj h).2⟩
      | cons b bs =>
          -- no byte is written as a quote
          rw [List.flatMap_cons] at h
          cases hb : mustEscape b with
          | true =>
              obtain ⟨rest, hrest⟩ := exists_escaped hb
              rw [hrest] at h
              exact absurd (List.cons.inj h).1 (by decide)
          | false =>
              rw [escaped_of_not_mustEscape b hb] at h
              exact absurd (List.cons.inj h).1 (ne_of_not_mustEscape b hb).1
  | cons p ps ih =>
      intro bs tail back h
      have hrest := fun q hq => hps q (List.mem_cons_of_mem _ hq)
      rw [Pieces.text_cons, List.append_assoc] at h
      rcases hps p List.mem_cons_self with hplain | hescape
      · obtain ⟨bs', rfl, h'⟩ := exists_of_unescaped (unescaped_of_plain hplain) h
        obtain ⟨hformed, rfl, rfl⟩ := ih hrest h'
        obtain ⟨he, -, -, -⟩ := hplain
        exact ⟨.cons he hformed, Pieces.bytes_cons _ _, rfl⟩
      · obtain ⟨b, bs', hb, hcs, rfl, h'⟩ := exists_of_escape hescape h
        obtain ⟨hformed, rfl, rfl⟩ := ih hrest h'
        refine ⟨.cons (.one hb) hformed, ?_, rfl⟩
        rw [Pieces.bytes_cons, hcs]
        rfl

/-- What is read where a string has been written. -/
theorem eq_of_literal {l : StringLiteral} {t : Text} {tail back : Bytes}
    (h : quoted t.bytes ++ tail = l.text ++ back) :
    l.text = quoted t.bytes ∧ Utf8.WellFormed t.bytes ∧ l.toText = t.asRead ∧ tail = back := by
  have hbody : t.bytes.flatMap escaped ++ quote :: tail =
      Pieces.text l.pieces ++ quote :: back := by
    rw [quoted_eq, StringLiteral.text] at h
    simpa using h
  obtain ⟨hformed, hbytes, rfl⟩ := eq_of_pieces l.legal hbody
  have htext := List.append_cancel_right hbody
  refine ⟨?_, hformed, ?_, rfl⟩
  · rw [StringLiteral.text, quoted_eq, htext]
  · rw [StringLiteral.toText, StringLiteral.hasEscape, ← htext, contains_backslash_escaped,
      StringLiteral.bytes, hbytes]
    rfl

end Write

/-! ### The first byte -/

/-- The byte may begin a value: it is not blank, and neither closes an array or object nor separates
its parts. -/
def beginsValue (b : UInt8) : Bool :=
  !isBlank b && b != closeBracket && b != closeBrace && b != comma

/-- What the first byte of a value tells. -/
structure Node.Headed (node : Node) (b : UInt8) : Prop where
  begins : beginsValue b = true
  string : b = quote → ∃ l, node = .string l
  array : b = openBracket → (∃ w, node = .emptyArray w) ∨ ∃ w first more, node = .array w first more
  object : b = openBrace → (∃ w, node = .emptyObject w) ∨
    ∃ w key w₁ w₂ first more, node = .object w key w₁ w₂ first more

/-- A byte that is part of a word or a number tells neither of a string nor of an array or object.
-/
theorem Node.headed_of_ne {node : Node} {b : UInt8} (hb : beginsValue b = true) (hq : b ≠ quote)
    (ha : b ≠ openBracket) (ho : b ≠ openBrace) : node.Headed b :=
  ⟨hb, fun h => absurd h hq, fun h => absurd h ha, fun h => absurd h ho⟩

theorem beginsValue_of_isPart : ∀ b : UInt8, Numeral.isPart b = true →
    beginsValue b = true ∧ b ≠ quote ∧ b ≠ openBracket ∧ b ≠ openBrace :=
  forall_byte (by decide)

/-- The first byte of a value's text tells what the value may be. -/
theorem Node.exists_headed (node : Node) : ∃ b rest, node.text = b :: rest ∧ node.Headed b := by
  cases node with
  | null => exact ⟨_, _, rfl, headed_of_ne (by decide) (by decide) (by decide) (by decide)⟩
  | boolean b =>
      cases b
      · exact ⟨_, _, rfl, headed_of_ne (by decide) (by decide) (by decide) (by decide)⟩
      · exact ⟨_, _, rfl, headed_of_ne (by decide) (by decide) (by decide) (by decide)⟩
  | number n =>
      have hne : n.numeral.text ≠ [] := by simp [Numeral.text_eq, n.proper.whole.1]
      obtain ⟨b, rest, htext⟩ := List.exists_cons_of_ne_nil hne
      have hpart := n.proper.isPart_of_mem b (by rw [htext]; exact List.mem_cons_self)
      obtain ⟨hb, hq, ha, ho⟩ := beginsValue_of_isPart b hpart
      exact ⟨b, rest, htext, headed_of_ne hb hq ha ho⟩
  | nonFinite word =>
      cases word <;>
        exact ⟨_, _, rfl, headed_of_ne (by decide) (by decide) (by decide) (by decide)⟩
  | string l =>
      exact ⟨_, _, rfl, by decide, fun _ => ⟨l, rfl⟩, fun h => absurd h (by decide),
        fun h => absurd h (by decide)⟩
  | emptyArray w =>
      exact ⟨_, _, rfl, by decide, fun h => absurd h (by decide), fun _ => .inl ⟨w, rfl⟩,
        fun h => absurd h (by decide)⟩
  | array w first more =>
      exact ⟨_, _, rfl, by decide, fun h => absurd h (by decide),
        fun _ => .inr ⟨w, first, more, rfl⟩, fun h => absurd h (by decide)⟩
  | emptyObject w =>
      exact ⟨_, _, rfl, by decide, fun h => absurd h (by decide), fun h => absurd h (by decide),
        fun _ => .inl ⟨w, rfl⟩⟩
  | object w key w₁ w₂ first more =>
      exact ⟨_, _, rfl, by decide, fun h => absurd h (by decide), fun h => absurd h (by decide),
        fun _ => .inr ⟨w, key, w₁, w₂, first, more, rfl⟩⟩

/-- Something begins a value. -/
def BeginsValue (bs : Bytes) : Prop :=
  ∃ b rest, bs = b :: rest ∧ beginsValue b = true

/-- The text of a value begins a value. -/
theorem Node.beginsValue (node : Node) : BeginsValue node.text := by
  obtain ⟨b, rest, htext, hhead⟩ := node.exists_headed
  exact ⟨b, rest, htext, hhead.begins⟩

/-- What begins a value begins it whatever follows. -/
theorem BeginsValue.append {bs : Bytes} (h : BeginsValue bs) (back : Bytes) :
    BeginsValue (bs ++ back) := by
  obtain ⟨b, rest, rfl, hb⟩ := h
  exact ⟨b, rest ++ back, rfl, hb⟩

/-- What closes an array or object begins no value. -/
theorem BeginsValue.ne {bs back : Bytes} (h : BeginsValue bs) :
    bs ≠ closeBracket :: back ∧ bs ≠ closeBrace :: back := by
  obtain ⟨b, rest, rfl, hb⟩ := h
  refine ⟨fun he => ?_, fun he => ?_⟩
  · rw [(List.cons.inj he).1] at hb
    exact absurd hb (by decide)
  · rw [(List.cons.inj he).1] at hb
    exact absurd hb (by decide)

/-- No value begins with a blank. -/
theorem BeginsValue.stops {bs : Bytes} (h : BeginsValue bs) : Stops isBlank bs := by
  obtain ⟨b, rest, rfl, hb⟩ := h
  refine (stops_cons _ _ _).mpr ?_
  by_contra hblank
  simp [beginsValue, hblank] at hb

/-! ### One value at one place -/

mutual

/-- What keeps to what is asked for keeps to less. -/
theorem Node.Within.of_allowed {allowNonFinite : Bool} : ∀ {node : Node},
    node.Within allowNonFinite → node.Within true
  | .null, _ | .boolean _, _ | .string _, _ | .emptyArray _, _ | .emptyObject _, _ => trivial
  | .number _, h => h
  | .nonFinite _, _ => rfl
  | .array _ _ _, ⟨hfirst, hmore⟩ => ⟨Node.Within.of_allowed hfirst, Items.Within.of_allowed hmore⟩
  | .object _ _ _ _ _ _, ⟨hfirst, hmore⟩ =>
      ⟨Node.Within.of_allowed hfirst, Fields.Within.of_allowed hmore⟩

theorem Items.Within.of_allowed {allowNonFinite : Bool} : ∀ {more : Items},
    more.Within allowNonFinite → more.Within true
  | .close _, _ => trivial
  | .comma _ _ _ _, ⟨hitem, hmore⟩ =>
      ⟨Node.Within.of_allowed hitem, Items.Within.of_allowed hmore⟩

theorem Fields.Within.of_allowed {allowNonFinite : Bool} : ∀ {more : Fields},
    more.Within allowNonFinite → more.Within true
  | .close _, _ => trivial
  | .comma _ _ _ _ _ _ _, ⟨hitem, hmore⟩ =>
      ⟨Node.Within.of_allowed hitem, Fields.Within.of_allowed hmore⟩

end

open Reader in
/-- **At one place there is at most one value**, as both are read there. -/
theorem Node.eq_of_append {node node' : Node} {allowNonFinite : Bool} {back back' : Bytes}
    (h : node.text ++ back = node'.text ++ back') (hends : node.EndsBefore back)
    (hends' : node'.EndsBefore back') (hwithin : node.Within allowNonFinite)
    (hwithin' : node'.Within allowNonFinite) : back = back' ∧ node.value = node'.value := by
  have hr : rest (start (.ofBytes 0 (node.text ++ back)) { allowNonFinite }) = node.text ++ back :=
    (rest_start _ _).trans (Slice.bytes_ofBytes 0 _)
  generalize hs : start (.ofBytes 0 (node.text ++ back)) { allowNonFinite } = s at hr
  have hs₀ : s.failed = false := by rw [← hs]; rfl
  have ho : s.state.options.allowNonFinite = allowNonFinite := by rw [← hs]; rfl
  rw [← ho] at hwithin hwithin'
  obtain ⟨s₁, hbuild, hpass⟩ := build_derivation (d := ⟨.none, node, .none⟩) hs₀ hr hends hwithin
    (Nat.le_max_left node.depth node'.depth)
  obtain ⟨s₂, hbuild', hpass'⟩ := build_derivation (d := ⟨.none, node', .none⟩) hs₀ (hr.trans h)
    hends' hwithin' (Nat.le_max_right node.depth node'.depth)
  rw [hbuild] at hbuild'
  obtain ⟨hvalue, rfl⟩ := Prod.mk.inj hbuild'
  refine ⟨?_, hvalue⟩
  have hback : back = rest s₁ := List.append_cancel_left (hr.symm.trans hpass.rest_eq)
  have hback' : back' = rest s₁ :=
    List.append_cancel_left ((hr.trans h).symm.trans hpass'.rest_eq)
  rw [hback, hback']

/-! ### Written values -/

open Value

variable {layout : Layout} {allowNonFinite : Bool}

/-- Neither an array nor an object nor a string. -/
def Value.IsPlain (v : Value) : Prop :=
  v.IsScalar ∧ v.texts = []

/-- What is written for it is in the grammar, where every number is allowed. -/
theorem Value.IsPlain.exists_node {v : Value} (h : v.IsPlain) (indent : Nat) :
    ∃ node : Node, node.Renders layout indent true v := by
  refine JsonTree.exists_node ((everywhere_scalar h.1).mpr ?_) indent
  cases v with
  | string t => exact absurd h.2 (List.cons_ne_nil _ _)
  | array _ | object _ => exact h.1.elim
  | floating x => exact ⟨trivial, trivial, .inr rfl⟩
  | _ => exact ⟨trivial, trivial, trivial⟩

/-- What is written for a value begins a value. -/
theorem Value.beginsValue_render (v : Value) (indent : Nat) :
    BeginsValue (v.render layout indent) := by
  cases v with
  | null => exact Node.beginsValue .null
  | boolean b => exact Node.beginsValue (.boolean b)
  | integer n =>
      have hplain : (Value.integer n).IsPlain := ⟨trivial, rfl⟩
      obtain ⟨node, hnode⟩ : ∃ node : Node, node.Renders layout indent true (.integer n) :=
        hplain.exists_node indent
      exact hnode.text ▸ node.beginsValue
  | floating x =>
      have hplain : (Value.floating x).IsPlain := ⟨trivial, rfl⟩
      obtain ⟨node, hnode⟩ : ∃ node : Node, node.Renders layout indent true (.floating x) :=
        hplain.exists_node indent
      exact hnode.text ▸ node.beginsValue
  | string t =>
      rw [render, Write.quoted_eq]
      exact ⟨_, _, rfl, by decide⟩
  | array items => cases items <;> exact ⟨_, _, rfl, by decide⟩
  | object members => cases members <;> exact ⟨_, _, rfl, by decide⟩

/-- The node is what is written for the value, which is fit to be written and read; it is as deep,
and means the same strings and keys as they are read. -/
structure Node.Rereads (layout : Layout) (indent : Nat) (allowNonFinite : Bool) (v : Value)
    (node : Node) : Prop where
  text : node.text = v.render layout indent
  fit : v.Everywhere (Fit allowNonFinite)
  depth : node.depth = v.depth
  texts : node.value.texts = v.texts.map Text.asRead

/-- Wherever the value has been written, what stands there as a value is what is written for it. -/
def Value.Recovered (layout : Layout) (allowNonFinite : Bool) (v : Value) : Prop :=
  ∀ {indent : Nat} {node : Node} {back tail : Bytes},
    v.render layout indent ++ tail = node.text ++ back → node.EndsBefore back →
    Stops Numeral.isPart tail → node.Within allowNonFinite →
    node.Rereads layout indent allowNonFinite v

/-- Behind the value the same follows. -/
theorem Value.Recovered.eq_of_append {v : Value} (hv : v.Recovered layout allowNonFinite)
    {indent : Nat} {node : Node} {back tail : Bytes}
    (h : v.render layout indent ++ tail = node.text ++ back) (hends : node.EndsBefore back)
    (htail : Stops Numeral.isPart tail) (hwithin : node.Within allowNonFinite) :
    node.Rereads layout indent allowNonFinite v ∧ tail = back := by
  have hread := hv h hends htail hwithin
  rw [hread.text] at h
  exact ⟨hread, List.append_cancel_left h⟩

/-- A scalar nests nothing. -/
theorem Node.depth_eq_zero {node : Node} (h : node.value.IsScalar) : node.depth = 0 := by
  cases node with
  | emptyArray _ | array _ _ _ | emptyObject _ | object _ _ _ _ _ _ => exact h.elim
  | _ => rfl

/-- A twin of a plain value is plain. -/
theorem Value.Twin.isPlain {v w : Value} (h : v.Twin w) (hv : v.IsPlain) : w.IsPlain := by
  cases v with
  | string t => exact absurd hv.2 (List.cons_ne_nil _ _)
  | array _ | object _ => exact hv.1.elim
  | null | boolean _ | integer _ | floating _ =>
      cases w with
      | string _ | array _ | object _ => exact h.elim
      | _ => exact ⟨trivial, rfl⟩

/-- A number or a word is read where it is written. -/
theorem recovered_plain {v : Value} (hv : v.IsPlain) : v.Recovered layout allowNonFinite := by
  intro indent node back tail h hends htail hwithin
  obtain ⟨node', hnode'⟩ : ∃ node : Node, node.Renders layout indent true v :=
    hv.exists_node indent
  rw [← hnode'.text] at h
  obtain ⟨rfl, hvalue⟩ := Node.eq_of_append h (Reader.endsBefore_of_stops node' htail) hends
    hnode'.within hwithin.of_allowed
  have htwin : v.Twin node.value := hvalue ▸ hnode'.twin
  have hplain := htwin.isPlain hv
  refine ⟨(List.append_cancel_right h).symm.trans hnode'.text, ?_, ?_, ?_⟩
  · refine (everywhere_scalar hv.1).mpr ?_
    have hfit := (Node.everywhere_fit hwithin).self
    cases v with
    | floating x =>
        obtain ⟨y, hy, hxy⟩ := htwin.floating_inv
        have hback : Twin (.floating y) (.floating x) := hxy.imp Eq.symm And.symm
        exact ⟨trivial, trivial, hback.allowed (hy ▸ hfit.allowed)⟩
    | string t => exact absurd hv.2 (List.cons_ne_nil _ _)
    | array _ | object _ => exact hv.1.elim
    | _ => exact ⟨trivial, trivial, trivial⟩
  · rw [Node.depth_eq_zero hplain.1, ← hnode'.depth]
    exact (Node.depth_eq_zero (hvalue ▸ hplain.1)).symm
  · rw [hplain.2, hv.2]
    rfl

/-- A string is read where it is written. -/
theorem recovered_string (t : Text) : (Value.string t).Recovered layout allowNonFinite := by
  intro indent node back tail h _ _ _
  obtain ⟨b, rest, htext, hhead⟩ := node.exists_headed
  have hb : b = quote := by
    rw [render, Write.quoted_eq, htext] at h
    exact (List.cons.inj h).1.symm
  obtain ⟨l, rfl⟩ := hhead.string hb
  obtain ⟨hl, hformed, htoText, rfl⟩ := Write.eq_of_literal h
  refine ⟨hl, everywhere_string.mpr ⟨hformed, trivial, trivial⟩, rfl, ?_⟩
  rw [Node.value, texts, texts, htoText]
  rfl

/-- Blanks end where something else begins. -/
theorem Blanks.eq_of_append {w w' : Blanks} {back back' : Bytes}
    (h : w.text ++ back = w'.text ++ back') (hback : Stops isBlank back)
    (hback' : Stops isBlank back') : w.text = w'.text ∧ back = back' := by
  have htake := congrArg (List.takeWhile isBlank) h
  rw [takeWhile_run w.blank hback, takeWhile_run w'.blank hback'] at htake
  rw [htake] at h
  exact ⟨htake, List.append_cancel_left h⟩

/-- Blanks are known by where they stop, as is the byte behind them. -/
theorem Blanks.eq_of_marks {w w' : Blanks} {b b' : UInt8} {back back' : Bytes}
    (h : w.text ++ b :: back = w'.text ++ b' :: back') (hb : isBlank b = false)
    (hb' : isBlank b' = false) : w.text = w'.text ∧ b = b' ∧ back = back' := by
  obtain ⟨hw, hback⟩ := eq_of_append h ((stops_cons _ _ _).mpr hb) ((stops_cons _ _ _).mpr hb')
  exact ⟨hw, List.cons.inj hback⟩

/-- A number ends before what follows an item. -/
theorem Items.stops (more : Items) (back : Bytes) : Stops Numeral.isPart (more.text ++ back) := by
  cases more with
  | close w | comma w _ _ _ =>
      simp only [Items.text, List.append_assoc, List.cons_append]
      exact Reader.stops_blanks w (by decide) _

/-- A number ends before the items that are written behind it. -/
theorem stops_renderItems (vs : List Value) (indent : Nat) (w : Blanks) (tail : Bytes) :
    Stops Numeral.isPart (renderItems layout indent vs ++ (w.text ++ closeBracket :: tail)) := by
  cases vs with
  | nil => exact Reader.stops_blanks w (by decide) tail
  | cons v vs => exact (stops_cons _ _ _).mpr (by decide)

/-- The rest of an array is what is written for the items. -/
theorem recovered_items {vs : List Value} (ih : ∀ v ∈ vs, v.Recovered layout allowNonFinite)
    {indent : Nat} {w : Blanks} : ∀ {more : Items} {back tail : Bytes},
    renderItems layout indent vs ++ (w.text ++ closeBracket :: tail) = more.text ++ back →
    more.Within allowNonFinite →
      more.text = renderItems layout indent vs ++ (w.text ++ [closeBracket]) ∧
        (∀ v ∈ vs, v.Everywhere (Fit allowNonFinite)) ∧ more.depth = itemsDepth vs ∧
        itemsTexts more.values = (itemsTexts vs).map Text.asRead := by
  -- on the items that were written; the first mark that is read has to be the one that was written,
  -- and so decides between the end and one more item
  induction vs with
  | nil =>
      intro more back tail h _
      cases more with
      | close w' =>
          rw [Items.text, List.append_assoc] at h
          obtain ⟨hw, -⟩ := Blanks.eq_of_marks h (by decide) (by decide)
          exact ⟨by rw [Items.text, ← hw]; rfl, List.forall_mem_nil _, rfl, rfl⟩
      | comma w' w'' item more =>
          rw [Items.text, List.append_assoc] at h
          obtain ⟨-, hmark, -⟩ := Blanks.eq_of_marks h (by decide) (by decide)
          exact absurd hmark (by decide)
  | cons v vs ihItems =>
      intro more back tail h hwithin
      have hnone : renderItems layout indent (v :: vs) ++ (w.text ++ closeBracket :: tail) =
          Blanks.none.text ++ comma :: ((layout.line indent).text ++ (v.render layout indent ++
            (renderItems layout indent vs ++ (w.text ++ closeBracket :: tail)))) := by
        simp [renderItems, Blanks.none]
      rw [hnone] at h
      cases more with
      | close w' =>
          rw [Items.text, List.append_assoc] at h
          obtain ⟨-, hmark, -⟩ := Blanks.eq_of_marks h (by decide) (by decide)
          exact absurd hmark (by decide)
      | comma w' w'' item more =>
          obtain ⟨hitem, hmore⟩ := hwithin
          rw [Items.text, List.append_assoc, List.cons_append, List.append_assoc,
            List.append_assoc] at h
          obtain ⟨hw', -, h⟩ := Blanks.eq_of_marks h (by decide) (by decide)
          obtain ⟨hline, h⟩ := Blanks.eq_of_append h ((v.beginsValue_render indent).append _).stops
            (item.beginsValue.append _).stops
          obtain ⟨hread, h⟩ := Recovered.eq_of_append (ih v List.mem_cons_self) h
            (Reader.endsBefore_of_stops item (more.stops back)) (stops_renderItems vs indent w tail)
            hitem
          obtain ⟨htext, hfit, hdepth, htexts⟩ :=
            ihItems (fun u hu => ih u (List.mem_cons_of_mem _ hu)) h hmore
          refine ⟨?_, List.forall_mem_cons.mpr ⟨hread.fit, hfit⟩, ?_, ?_⟩
          · rw [Items.text, ← hw', ← hline, hread.text, htext, renderItems]
            simp [Blanks.none]
          · rw [Items.depth, hread.depth, hdepth, itemsDepth]
          · rw [Items.values, itemsTexts, itemsTexts, hread.texts, htexts, List.map_append]

/-- An array is read where it has been written. -/
theorem recovered_array {vs : List Value} (ih : ∀ v ∈ vs, v.Recovered layout allowNonFinite) :
    (Value.array vs).Recovered layout allowNonFinite := by
  intro indent node back tail h _ _ hwithin
  obtain ⟨b, rest, htext, hhead⟩ := node.exists_headed
  have hb : b = openBracket := by
    rw [htext] at h
    cases vs <;> exact (List.cons.inj h).1.symm
  -- what is read may be empty or not, and so may what was written: the byte behind the blanks rules
  -- out the two cases that do not fit
  rcases hhead.array hb with ⟨w, rfl⟩ | ⟨w, first, more, rfl⟩
  · rw [Node.text, List.cons_append, List.append_assoc] at h
    cases vs with
    | nil =>
        have h' : Blanks.none.text ++ closeBracket :: tail = w.text ++ closeBracket :: back :=
          (List.cons.inj h).2
        obtain ⟨hw, -⟩ := Blanks.eq_of_marks h' (by decide) (by decide)
        refine ⟨?_, everywhere_array.mpr ⟨⟨trivial, trivial, trivial⟩, List.forall_mem_nil _⟩, rfl,
          rfl⟩
        rw [Node.text, ← hw]
        rfl
    | cons v vs =>
        rw [render, List.cons_append, List.append_assoc, List.append_assoc] at h
        obtain ⟨-, h⟩ := Blanks.eq_of_append (List.cons.inj h).2
          ((v.beginsValue_render (layout.inner indent)).append _).stops
          ((stops_cons _ _ _).mpr (by decide))
        exact absurd h ((v.beginsValue_render (layout.inner indent)).append _).ne.1
  · obtain ⟨hfirst, hmore⟩ := hwithin
    rw [Node.text, List.cons_append, List.append_assoc, List.append_assoc] at h
    have hbegins := first.beginsValue.append (more.text ++ back)
    cases vs with
    | nil =>
        have h' : Blanks.none.text ++ closeBracket :: tail = w.text ++ (first.text ++
          (more.text ++ back)) := (List.cons.inj h).2
        obtain ⟨-, h'⟩ := Blanks.eq_of_append h' ((stops_cons _ _ _).mpr (by decide)) hbegins.stops
        exact absurd h'.symm hbegins.ne.1
    | cons v vs =>
        rw [render, List.cons_append, List.append_assoc, List.append_assoc, List.append_assoc,
          List.append_assoc] at h
        obtain ⟨hline, h⟩ := Blanks.eq_of_append (List.cons.inj h).2
          ((v.beginsValue_render (layout.inner indent)).append _).stops hbegins.stops
        obtain ⟨hread, h⟩ := Recovered.eq_of_append (ih v List.mem_cons_self) h
          (Reader.endsBefore_of_stops first (more.stops back)) (stops_renderItems vs _ _ tail) hfirst
        obtain ⟨htext, hfit, hdepth, htexts⟩ := recovered_items
          (fun u hu => ih u (List.mem_cons_of_mem _ hu)) h hmore
        refine ⟨?_, everywhere_array.mpr
          ⟨⟨trivial, trivial, trivial⟩, List.forall_mem_cons.mpr ⟨hread.fit, hfit⟩⟩, ?_, ?_⟩
        · rw [Node.text, ← hline, hread.text, htext, render]
        · rw [Node.depth, hread.depth, hdepth]
          rfl
        · rw [Node.value, texts, texts, itemsTexts, itemsTexts, hread.texts, htexts,
            List.map_append]

/-- A number ends before what follows a member. -/
theorem Fields.stops (more : Fields) (back : Bytes) : Stops Numeral.isPart (more.text ++ back) := by
  cases more with
  | close w | comma w _ _ _ _ _ _ =>
      simp only [Fields.text, List.append_assoc, List.cons_append]
      exact Reader.stops_blanks w (by decide) _

/-- A number ends before the members that are written behind it. -/
theorem stops_renderMembers (ms : Members) (indent : Nat) (w : Blanks) (tail : Bytes) :
    Stops Numeral.isPart (renderMembers layout indent ms ++ (w.text ++ closeBrace :: tail)) := by
  cases ms with
  | nil => exact Reader.stops_blanks w (by decide) tail
  | cons m ms => exact (stops_cons _ _ _).mpr (by decide)

/-- What a member is read as, where it has been written. -/
structure MemberRereads (layout : Layout) (indent : Nat) (allowNonFinite : Bool) (m : Member)
    (l : StringLiteral) (w w' : Blanks) (node : Node) : Prop where
  key : l.text = Write.quoted m.1.bytes
  formed : Utf8.WellFormed m.1.bytes
  text : l.toText = m.1.asRead
  behindKey : w.text = []
  gap : w'.text = layout.gap.text
  value : node.Rereads layout indent allowNonFinite m.2

/-- A member is read where it has been written. -/
theorem recovered_member {m : Member} (ih : m.2.Recovered layout allowNonFinite) {indent : Nat}
    {l : StringLiteral} {w w' : Blanks} {node : Node} {back tail : Bytes}
    (h : Write.quoted m.1.bytes ++ (colon :: (layout.gap.text ++ (m.2.render layout indent ++
      tail))) = l.text ++ (w.text ++ colon :: (w'.text ++ (node.text ++ back))))
    (hends : node.EndsBefore back) (htail : Stops Numeral.isPart tail)
    (hwithin : node.Within allowNonFinite) :
    MemberRereads layout indent allowNonFinite m l w w' node ∧ tail = back := by
  obtain ⟨hl, hformed, htext, h⟩ := Write.eq_of_literal h
  have h' : Blanks.none.text ++ colon :: (layout.gap.text ++ (m.2.render layout indent ++ tail)) =
      w.text ++ colon :: (w'.text ++ (node.text ++ back)) := h
  obtain ⟨hw, -, h'⟩ := Blanks.eq_of_marks h' (by decide) (by decide)
  obtain ⟨hgap, h'⟩ := Blanks.eq_of_append h' ((m.2.beginsValue_render indent).append _).stops
    (node.beginsValue.append _).stops
  obtain ⟨hread, htail⟩ := ih.eq_of_append h' hends htail hwithin
  exact ⟨⟨hl, hformed, htext, hw.symm, hgap.symm, hread⟩, htail⟩

theorem stops_quoted (bs back : Bytes) : Stops isBlank (Write.quoted bs ++ back) := by
  rw [Write.quoted_eq]
  exact (stops_cons _ _ _).mpr (by decide)

theorem StringLiteral.stops (l : StringLiteral) (back : Bytes) : Stops isBlank (l.text ++ back) :=
  (stops_cons _ _ _).mpr (by decide)

/-- The rest of an object is what is written for the members. -/
theorem recovered_fields {ms : Members} (ih : ∀ m ∈ ms, m.2.Recovered layout allowNonFinite)
    {indent : Nat} {w : Blanks} : ∀ {more : Fields} {back tail : Bytes},
    renderMembers layout indent ms ++ (w.text ++ closeBrace :: tail) = more.text ++ back →
    more.Within allowNonFinite →
      more.text = renderMembers layout indent ms ++ (w.text ++ [closeBrace]) ∧
        (∀ m ∈ ms, Utf8.WellFormed m.1.bytes ∧ m.2.Everywhere (Fit allowNonFinite)) ∧
        more.depth = membersDepth ms ∧
        membersTexts more.members = (membersTexts ms).map Text.asRead ∧
        Members.keys more.members = Members.keys ms := by
  -- as for the items of an array, with a key before each value
  induction ms with
  | nil =>
      intro more back tail h _
      cases more with
      | close w' =>
          rw [Fields.text, List.append_assoc] at h
          obtain ⟨hw, -⟩ := Blanks.eq_of_marks h (by decide) (by decide)
          exact ⟨by rw [Fields.text, ← hw]; rfl, List.forall_mem_nil _, rfl, rfl, rfl⟩
      | comma w' w'' key w₁ w₂ item more =>
          rw [Fields.text, List.append_assoc] at h
          obtain ⟨-, hmark, -⟩ := Blanks.eq_of_marks h (by decide) (by decide)
          exact absurd hmark (by decide)
  | cons m ms ihFields =>
      obtain ⟨t, v⟩ := m
      intro more back tail h hwithin
      have hnone : renderMembers layout indent ((t, v) :: ms) ++ (w.text ++ closeBrace :: tail) =
          Blanks.none.text ++ comma :: ((layout.line indent).text ++ (Write.quoted t.bytes ++
            (colon :: (layout.gap.text ++ (v.render layout indent ++
              (renderMembers layout indent ms ++ (w.text ++ closeBrace :: tail))))))) := by
        simp [renderMembers, Blanks.none]
      rw [hnone] at h
      cases more with
      | close w' =>
          rw [Fields.text, List.append_assoc] at h
          obtain ⟨-, hmark, -⟩ := Blanks.eq_of_marks h (by decide) (by decide)
          exact absurd hmark (by decide)
      | comma w' w'' key w₁ w₂ item more =>
          obtain ⟨hitem, hmore⟩ := hwithin
          simp only [Fields.text, List.append_assoc, List.cons_append] at h
          obtain ⟨hw', -, h⟩ := Blanks.eq_of_marks h (by decide) (by decide)
          obtain ⟨hline, h⟩ := Blanks.eq_of_append h (stops_quoted _ _) (key.stops _)
          obtain ⟨hread, h⟩ := recovered_member (ih (t, v) List.mem_cons_self) h
            (Reader.endsBefore_of_stops item (more.stops back)) (stops_renderMembers ms indent w tail)
            hitem
          obtain ⟨htext, hfit, hdepth, htexts, hkeys⟩ :=
            ihFields (fun u hu => ih u (List.mem_cons_of_mem _ hu)) h hmore
          refine ⟨?_, List.forall_mem_cons.mpr ⟨⟨hread.formed, hread.value.fit⟩, hfit⟩, ?_, ?_, ?_⟩
          · rw [Fields.text, ← hw', ← hline, hread.key, hread.behindKey, hread.gap,
              hread.value.text, htext, renderMembers]
            simp [Blanks.none]
          · rw [Fields.depth, hread.value.depth, hdepth, membersDepth]
          · rw [Fields.members, membersTexts, membersTexts, hread.text, hread.value.texts, htexts]
            simp
          · rw [Fields.members, Members.keys_cons, Members.keys_cons, hkeys, hread.text]
            rfl

/-- An object is read where it has been written. -/
theorem recovered_object {ms : Members} (hkeyed : Members.Distinct ms)
    (ih : ∀ m ∈ ms, m.2.Recovered layout allowNonFinite) :
    (Value.object ms).Recovered layout allowNonFinite := by
  intro indent node back tail h _ _ hwithin
  obtain ⟨b, rest, htext, hhead⟩ := node.exists_headed
  have hb : b = openBrace := by
    rw [htext] at h
    cases ms <;> exact (List.cons.inj h).1.symm
  rcases hhead.object hb with ⟨w, rfl⟩ | ⟨w, key, w₁, w₂, first, more, rfl⟩
  · rw [Node.text, List.cons_append, List.append_assoc] at h
    cases ms with
    | nil =>
        have h' : Blanks.none.text ++ closeBrace :: tail = w.text ++ closeBrace :: back :=
          (List.cons.inj h).2
        obtain ⟨hw, -⟩ := Blanks.eq_of_marks h' (by decide) (by decide)
        refine ⟨?_, everywhere_object.mpr ⟨⟨List.forall_mem_nil _, hkeyed, trivial⟩,
          List.forall_mem_nil _⟩, rfl, rfl⟩
        rw [Node.text, ← hw]
        rfl
    | cons m ms =>
        rw [render, List.cons_append, List.append_assoc, List.append_assoc] at h
        obtain ⟨-, h⟩ := Blanks.eq_of_append (List.cons.inj h).2 (stops_quoted _ _)
          ((stops_cons _ _ _).mpr (by decide))
        rw [Write.quoted_eq] at h
        exact absurd (List.cons.inj h).1 (by decide)
  · obtain ⟨hfirst, hmore⟩ := hwithin
    simp only [Node.text, List.cons_append, List.append_assoc] at h
    cases ms with
    | nil =>
        have h' : Blanks.none.text ++ closeBrace :: tail = w.text ++ (key.text ++ (w₁.text ++
          colon :: (w₂.text ++ (first.text ++ (more.text ++ back))))) := (List.cons.inj h).2
        obtain ⟨-, h'⟩ := Blanks.eq_of_append h' ((stops_cons _ _ _).mpr (by decide)) (key.stops _)
        exact absurd (List.cons.inj h').1 (by decide)
    | cons m ms =>
        obtain ⟨t, v⟩ := m
        simp only [render, List.cons_append, List.append_assoc] at h
        obtain ⟨hline, h⟩ := Blanks.eq_of_append (List.cons.inj h).2 (stops_quoted _ _)
          (key.stops _)
        obtain ⟨hread, h⟩ := recovered_member (ih (t, v) List.mem_cons_self) h
          (Reader.endsBefore_of_stops first (more.stops back)) (stops_renderMembers ms _ _ tail)
          hfirst
        obtain ⟨htext, hfit, hdepth, htexts, hkeys⟩ := recovered_fields
          (fun u hu => ih u (List.mem_cons_of_mem _ hu)) h hmore
        have hfits := List.forall_mem_cons.mpr ⟨⟨hread.formed, hread.value.fit⟩, hfit⟩
        -- the keys are distinct, so no member takes the place of another
        have hdistinct : Members.Distinct ((key.toText, first.value) :: more.members) := by
          rw [Members.Distinct, Members.keys_cons, hkeys, hread.text]
          exact hkeyed
        refine ⟨?_, everywhere_object.mpr ⟨⟨fun m hm => (hfits m hm).1, hkeyed, trivial⟩,
          fun m hm => (hfits m hm).2⟩, ?_, ?_⟩
        · rw [Node.text, ← hline, hread.key, hread.behindKey, hread.gap, hread.value.text, htext,
            render]
          rfl
        · rw [Node.depth, hread.value.depth, hdepth]
          rfl
        · rw [Node.value, Members.ofList_of_distinct hdistinct, texts, texts, membersTexts,
            membersTexts, hread.text, hread.value.texts, htexts]
          simp

/-- **What stands where a value has been written is what is written for it.** -/
theorem recovered {v : Value} (h : v.Everywhere Keyed) : v.Recovered layout allowNonFinite := by
  induction v with
  | null => exact recovered_plain (v := .null) ⟨trivial, rfl⟩
  | boolean b => exact recovered_plain (v := (.boolean b)) ⟨trivial, rfl⟩
  | integer n => exact recovered_plain (v := (.integer n)) ⟨trivial, rfl⟩
  | floating x => exact recovered_plain (v := (.floating x)) ⟨trivial, rfl⟩
  | string t => exact recovered_string t
  | array items ih =>
      exact recovered_array fun v hv => ih v hv ((everywhere_array.mp h).2 v hv)
  | object members ih =>
      obtain ⟨hkeys, hmembers⟩ := everywhere_object.mp h
      exact recovered_object hkeys fun m hm => ih m hm (hmembers m hm)

end JsonTree
