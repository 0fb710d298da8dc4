import JsonTree.Proofs.Decimal
import JsonTree.Proofs.Writing

/-!
# Written text — what is written for a value is in the grammar

Every part of a written value is a part of a derivation that means the same: a string is a literal
(`exists_literal`), a number a numeral (`exists_numberLiteral_integer`,
`exists_numberLiteral_floating`) or a word (`exists_word`), and a whole value a node
(`exists_node`), which is nested as deep as the value.
-/

namespace JsonTree

open Ascii Bytes

theorem Slice.bytes_ofBytes (buffer : Nat) (bs : Bytes) : (Slice.ofBytes buffer bs).bytes = bs := by
  refine List.ext_getElem ?_ ?_
  · simp [Slice.bytes, Slice.ofBytes, Slice.ofMemory, ByteArray.size]
  · intro i hi hi'
    simp [Slice.bytes, Slice.byte, Slice.ofBytes, Slice.ofMemory]
    rfl

namespace Write

/-! ### Strings -/

/-- A byte that need not be escaped is written as it is. -/
theorem escaped_of_not_mustEscape : ∀ b : UInt8, mustEscape b = false → escaped b = [b] :=
  forall_byte (by decide)

theorem flatMap_escaped {bs : Bytes} (h : ∀ b ∈ bs, mustEscape b = false) :
    bs.flatMap escaped = bs := by
  induction bs with
  | nil => rfl
  | cons b bs ih =>
      rw [List.flatMap_cons, escaped_of_not_mustEscape b (h b List.mem_cons_self),
        ih fun c hc => h c (List.mem_cons_of_mem _ hc)]
      rfl

/-- A run that is copied are the bytes from where it begins up to where it ends. -/
theorem bytes_flush {s : Slice} {chunk i : Nat} {run back : Bytes} (hrun : s.rest chunk = run ++ back)
    (hi : i = chunk + run.length) (out : Output) : (flush s chunk i out).bytes = out.bytes ++ run := by
  subst hi
  rw [flush]
  split
  · rw [Output.bytes_append, Slice.bytes_between hrun]
  · next hle =>
      obtain rfl : run = [] := List.eq_nil_of_length_eq_zero (by omega)
      rw [List.append_nil]

/-- **Copying in runs writes every byte on its own.** -/
theorem bytes_runs {s : Slice} (remaining : Nat) {i chunk : Nat} {run : Bytes} (out : Output)
    (hrun : s.rest chunk = run ++ s.rest i) (hi : i = chunk + run.length)
    (hle : s.size - i ≤ remaining) :
    (runs s remaining i chunk out).bytes = out.bytes ++ run ++ (s.rest i).flatMap escaped := by
  -- on the bytes left; the run grows by a byte, or it is copied and a new one begins behind the byte
  induction remaining generalizing i chunk run out with
  | zero =>
      have hend : s.rest i = [] := List.eq_nil_of_length_eq_zero (by rw [Slice.length_rest]; omega)
      rw [runs, bytes_flush hrun hi, hend]
      simp
  | succ remaining ih =>
      rw [runs]
      cases hb : s.get? i with
      | none =>
          rw [Slice.rest_eq_nil_of_get? hb] at hrun ⊢
          simp only [bytes_flush hrun hi, List.flatMap_nil, List.append_nil]
      | some b =>
          have hrest := Slice.rest_eq_cons_of_get? hb
          have begun : ∀ out, (runs s remaining (i + 1) (i + 1) out).bytes =
              out.bytes ++ [] ++ (s.rest (i + 1)).flatMap escaped :=
            fun out => ih out rfl rfl (by omega)
          rw [hrest, List.flatMap_cons, escaped]
          cases hletter : escapeLetter? b with
          | some letter =>
              dsimp only
              rw [hletter]
              simp [begun, bytes_flush hrun hi]
          | none =>
              dsimp only
              rw [hletter]
              cases hcontrol : isControl b with
              | true => simp [begun, bytes_flush hrun hi]
              | false =>
                  have hgrown : s.rest chunk = (run ++ [b]) ++ s.rest (i + 1) := by
                    rw [hrun, hrest]
                    simp
                  have hnext : i + 1 = chunk + (run ++ [b]).length := by
                    rw [hi, List.length_append]
                    rfl
                  simp [ih out hgrown hnext (by omega)]

/-- Every byte of a string is written on its own. -/
theorem quoted_eq (bs : Bytes) : quoted bs = quote :: (bs.flatMap escaped ++ [quote]) := by
  have hfirst : (Slice.ofBytes 0 bs).firstEscape = bs.findIdx mustEscape := by
    rw [Slice.firstEscape_eq, Slice.bytes_ofBytes]
  have hsize : (Slice.ofBytes 0 bs).size = bs.length := by
    rw [← Slice.length_bytes, Slice.bytes_ofBytes]
  have hbare : ∀ b ∈ bs.take (bs.findIdx mustEscape), mustEscape b = false := by
    intro b hb
    obtain ⟨i, hi, rfl⟩ := List.mem_iff_getElem.mp hb
    rw [List.length_take, Nat.lt_min] at hi
    rw [List.getElem_take]
    exact List.not_of_lt_findIdx hi.1
  rw [quoted, hfirst, hsize]
  split
  · next hall =>
      rw [hall, List.take_length] at hbare
      simp [flatMap_escaped hbare]
  · -- the run in front of the first byte to be escaped
    have hrest : (Slice.ofBytes 0 bs).rest (bs.findIdx mustEscape) =
        bs.drop (bs.findIdx mustEscape) := by
      rw [Slice.rest, Slice.bytes_ofBytes]
    have hfront : (Slice.ofBytes 0 bs).rest 0 = bs.take (bs.findIdx mustEscape) ++
        (Slice.ofBytes 0 bs).rest (bs.findIdx mustEscape) := by
      rw [hrest, List.take_append_drop, Slice.rest_zero, Slice.bytes_ofBytes]
    have hlength : bs.findIdx mustEscape = 0 + (bs.take (bs.findIdx mustEscape)).length := by
      rw [List.length_take, Nat.min_eq_left List.findIdx_le_length, Nat.zero_add]
    have hbegun : (Slice.ofBytes 0 bs).rest (bs.findIdx mustEscape) =
        [] ++ (Slice.ofBytes 0 bs).rest (bs.findIdx mustEscape) := rfl
    have hescaped : bs.flatMap escaped = bs.take (bs.findIdx mustEscape) ++
        (bs.drop (bs.findIdx mustEscape)).flatMap escaped := by
      conv_lhs => rw [← List.take_append_drop (bs.findIdx mustEscape) bs, List.flatMap_append,
        flatMap_escaped hbare]
    rw [Output.bytes_push, bytes_runs _ _ hbegun rfl (by rw [hsize]), bytes_flush hfront hlength,
      hrest, hescaped]
    simp

/-- The letter that is written for a byte is read as it. -/
theorem letter_of_escapeLetter? {b letter : UInt8} (h : escapeLetter? b = some letter) :
    (letter, b) ∈ escapeLetters := by
  have hall : ∀ b : UInt8,
      (escapeLetter? b).all (fun letter => escapeLetters.contains (letter, b)) = true :=
    forall_byte (by decide)
  have hb := hall b
  rw [h] at hb
  exact List.contains_iff_mem.mp hb

/-- A digit that is written is a digit of its value. -/
theorem hexDigit_hexDigit {n : Nat} (h : n < 16) : HexDigit (hexDigit n) n := by
  rw [hexDigit]
  split
  · next hn => exact .inl ⟨hn, by simp; omega⟩
  · next hn => exact .inr ⟨by omega, h, .inl (by simp; omega)⟩

theorem isPlain_of_bare : ∀ b : UInt8, b ≤ 0x7F → escapeLetter? b = none → isControl b = false →
    isPlain b = true :=
  forall_byte (by decide)

/-- Bytes beyond ASCII are never escaped. -/
theorem not_mustEscape_of_le : ∀ b : UInt8, 0x80 ≤ b → mustEscape b = false :=
  forall_byte (by decide)

/-- A byte of ASCII is written as a piece that means it. -/
theorem legal_escaped {b : UInt8} (hb : b ≤ 0x7F) : Piece.Legal ⟨escaped b, [b]⟩ := by
  rw [escaped]
  cases hletter : escapeLetter? b with
  | some letter => exact .inr (.letter (letter_of_escapeLetter? hletter))
  | none =>
      dsimp only
      split
      · have hlt : b.toNat < 256 := b.toNat_lt
        have hzero : HexDigit zero 0 := .inl ⟨by decide, rfl⟩
        have hfour := HexFour.mk hzero hzero (hexDigit_hexDigit (n := b.toNat / 16) (by omega))
          (hexDigit_hexDigit (n := b.toNat % 16) (by omega))
        have hn : ((0 * 16 + 0) * 16 + b.toNat / 16) * 16 + b.toNat % 16 = b.toNat := by omega
        rw [hn] at hfour
        exact .inr (.unit hfour (.one hb))
      · next hcontrol =>
          exact .inl (Literal.plain_of_isPlain
            (isPlain_of_bare b hb hletter (Bool.eq_false_of_not_eq_true hcontrol)))

/-- **A well formed string is written as a literal that means it.** -/
theorem exists_literal {bs : Bytes} (h : Utf8.WellFormed bs) :
    ∃ l : StringLiteral, l.text = quoted bs ∧ l.bytes = bs := by
  have hpieces : ∃ ps : List Piece, (∀ p ∈ ps, p.Legal) ∧ Pieces.text ps = bs.flatMap escaped ∧
      Pieces.bytes ps = bs := by
    induction h with
    | nil => exact ⟨[], (fun _ hp => nomatch hp), rfl, rfl⟩
    | @cons n c rest hc _ ih =>
        obtain ⟨ps, hlegal, htext, hbytes⟩ := ih
        rcases hc.ascii_or_beyond with ⟨b, hb, rfl, rfl⟩ | hn
        · refine ⟨⟨escaped b, [b]⟩ :: ps, Literal.legal_cons (legal_escaped hb) hlegal, ?_, ?_⟩
          · rw [Pieces.text_cons, htext]
            rfl
          · rw [Pieces.bytes_cons, hbytes]
        · have hplain : c.flatMap escaped = c :=
            flatMap_escaped fun b hb => not_mustEscape_of_le b (hc.beyond_ascii hn b hb)
          have hp : Piece.Plain ⟨c, c⟩ := ⟨hc, by omega, by omega, by omega⟩
          refine ⟨⟨c, c⟩ :: ps, Literal.legal_cons (.inl hp) hlegal, ?_, ?_⟩
          · rw [Pieces.text_cons, htext, List.flatMap_append, hplain]
          · rw [Pieces.bytes_cons, hbytes]
  obtain ⟨ps, hlegal, htext, hbytes⟩ := hpieces
  refine ⟨⟨ps, hlegal⟩, ?_, hbytes⟩
  rw [StringLiteral.text, htext, quoted_eq]

/-! ### Numbers -/

/-- An integer is written as a number literal that means it. -/
theorem exists_numberLiteral_integer (i : Int64) : ∃ n : NumberLiteral, n.text = integer i ∧
    n.Within ∧ n.value = .integer i := by
  obtain ⟨m, hproper, hint, htext, hvalue⟩ := exists_numeral_integer i
  rw [Numeral.toInt64?_eq hproper.whole] at hvalue
  split at hvalue
  · next hfits =>
      refine ⟨⟨m, hproper⟩, htext, (if_pos hint).mpr hfits, ?_⟩
      rw [← Option.some.inj hvalue]
      exact if_pos hint
  · cases hvalue

/-- A finite float is written as a number literal that means it. -/
theorem exists_numberLiteral_floating {x : Binary64} (h : x.isFinite = true) :
    ∃ n : NumberLiteral, n.text = floatingText x ∧ n.Within ∧ n.value = .floating x := by
  obtain ⟨m, hproper, hint, htext, hvalue⟩ := numberStyle.exists_numeral_finite h
  rw [Numeral.toBinary64_eq] at hvalue
  have hne : ¬ m.isInteger = true := by simp [hint]
  refine ⟨⟨m, hproper⟩, ?_, (if_neg hne).mpr ?_, (if_neg hne).trans ?_⟩
  · rw [floatingText, if_pos h]
    exact htext
  · rw [NumberLiteral.nearest, hvalue]
    exact h
  · rw [NumberLiteral.nearest, hvalue]

/-- A number that is neither finite nor no number is an infinity. -/
theorem eq_infinity {x : Binary64} (hx : x.isFinite = false) (hnan : x.isNaN = false) :
    x = if x.negative then Binary64.negativeInfinity else Binary64.infinity := by
  have hle : Binary64.infinite ≤ x.magnitude := Nat.le_of_not_lt (of_decide_eq_false hx)
  have hge : x.magnitude ≤ Binary64.infinite := Nat.le_of_not_lt (of_decide_eq_false hnan)
  have hself := Binary64.ofMagnitude_self x
  rw [Nat.le_antisymm hge hle] at hself
  cases hneg : x.negative with
  | true =>
      rw [hneg] at hself
      exact hself.symm
  | false =>
      rw [hneg] at hself
      exact hself.symm

/-- What is not finite is written as its word. -/
theorem exists_word {x : Binary64} (hx : x.isFinite = false) : ∃ word : NonFinite,
    word.text = floatingText x ∧ (x = word.number ∨ x.isNaN = true ∧ word.number.isNaN = true) := by
  have hne : ¬ x.isFinite = true := by simp [hx]
  rw [floatingText, if_neg hne]
  cases hnan : x.isNaN with
  | true => exact ⟨.nan, rfl, .inr ⟨rfl, by decide⟩⟩
  | false =>
      have heq := eq_infinity hx hnan
      cases hneg : x.negative with
      | true =>
          rw [hneg] at heq
          exact ⟨.negativeInfinity, rfl, .inl heq⟩
      | false =>
          rw [hneg] at heq
          exact ⟨.infinity, rfl, .inl heq⟩

end Write

/-! ### Values -/

/-- The node is what is written for the value, and means its twin. -/
structure Node.Renders (layout : Layout) (indent : Nat) (allowNonFinite : Bool) (v : Value)
    (node : Node) : Prop where
  text : node.text = v.render layout indent
  twin : v.Twin node.value
  depth : node.depth = v.depth
  within : node.Within allowNonFinite

/-- What is asked of a value and of everything inside it, to be written and read back. -/
structure Value.Fit (allowNonFinite : Bool) (v : Value) : Prop where
  encoded : v.Encoded
  keyed : v.Keyed
  allowed : v.Allowed allowNonFinite

variable {layout : Layout} {allowNonFinite : Bool}

open Value in
/-- The items are what is written behind the first item, up to the end of the array. -/
theorem exists_items {vs : List Value} {inner : Nat}
    (ih : ∀ v ∈ vs, ∃ node : Node, node.Renders layout inner allowNonFinite v) (w : Blanks) :
    ∃ more : Items, more.text = renderItems layout inner vs ++ (w.text ++ [closeBracket]) ∧
      TwinItems vs more.values ∧ more.depth = itemsDepth vs ∧ more.Within allowNonFinite := by
  induction vs with
  | nil => exact ⟨.close w, rfl, trivial, rfl, trivial⟩
  | cons v vs ihItems =>
      obtain ⟨node, hnode⟩ := ih v List.mem_cons_self
      obtain ⟨more, htext, htwin, hdepth, hwithin⟩ :=
        ihItems fun u hu => ih u (List.mem_cons_of_mem _ hu)
      refine ⟨.comma .none (layout.line inner) node more, ?_, ⟨hnode.twin, htwin⟩, ?_,
        hnode.within, hwithin⟩
      · rw [Items.text, htext, hnode.text, renderItems]
        simp [Blanks.none]
      · rw [Items.depth, hdepth, hnode.depth, itemsDepth]

open Value in
/-- The members are what is written behind the first member, up to the end of the object. -/
theorem exists_fields {ms : Members} {inner : Nat}
    (ih : ∀ m ∈ ms, ∃ node : Node, node.Renders layout inner allowNonFinite m.2)
    (hkeys : ∀ m ∈ ms, Utf8.WellFormed m.1.bytes) (w : Blanks) :
    ∃ more : Fields, more.text = renderMembers layout inner ms ++ (w.text ++ [closeBrace]) ∧
      TwinMembers ms more.members ∧ more.depth = membersDepth ms ∧
      more.Within allowNonFinite := by
  induction ms with
  | nil => exact ⟨.close w, rfl, trivial, rfl, trivial⟩
  | cons m ms ihFields =>
      obtain ⟨t, v⟩ := m
      obtain ⟨node, hnode⟩ := ih (t, v) List.mem_cons_self
      obtain ⟨l, hl, hbytes⟩ := Write.exists_literal (hkeys (t, v) List.mem_cons_self)
      obtain ⟨more, htext, htwin, hdepth, hwithin⟩ :=
        ihFields (fun u hu => ih u (List.mem_cons_of_mem _ hu))
          (fun u hu => hkeys u (List.mem_cons_of_mem _ hu))
      refine ⟨.comma .none (layout.line inner) l .none layout.gap node more, ?_,
        ⟨hbytes.symm, hnode.twin, htwin⟩, ?_, hnode.within, hwithin⟩
      · rw [Fields.text, htext, hnode.text, hl, renderMembers]
        simp [Blanks.none]
      · rw [Fields.depth, hdepth, hnode.depth, membersDepth]

open Value in
/-- An array is in the grammar if its items are. -/
theorem exists_array {vs : List Value} {indent : Nat}
    (ih : ∀ v ∈ vs, ∃ node : Node, node.Renders layout (layout.inner indent) allowNonFinite v) :
    ∃ node : Node, node.Renders layout indent allowNonFinite (.array vs) := by
  cases vs with
  | nil => exact ⟨.emptyArray .none, rfl, trivial, rfl, trivial⟩
  | cons v vs =>
      obtain ⟨node, hnode⟩ := ih v List.mem_cons_self
      obtain ⟨more, htext, htwin, hdepth, hwithin⟩ := exists_items
        (fun u hu => ih u (List.mem_cons_of_mem _ hu)) (layout.line indent)
      refine ⟨.array (layout.line (layout.inner indent)) node more, ?_, ⟨hnode.twin, htwin⟩, ?_,
        hnode.within, hwithin⟩
      · rw [Node.text, htext, hnode.text, render]
      · rw [Node.depth, hdepth, hnode.depth]
        rfl

open Value in
/-- An object is in the grammar if its keys are text and its values are in it. -/
theorem exists_object {ms : Members} {indent : Nat} (h : (Value.object ms).Fit allowNonFinite)
    (ih : ∀ m ∈ ms, ∃ node : Node, node.Renders layout (layout.inner indent) allowNonFinite m.2) :
    ∃ node : Node, node.Renders layout indent allowNonFinite (.object ms) := by
  cases ms with
  | nil => exact ⟨.emptyObject .none, rfl, trivial, rfl, trivial⟩
  | cons m ms =>
      obtain ⟨t, v⟩ := m
      have hkeys : ∀ u ∈ (t, v) :: ms, Utf8.WellFormed u.1.bytes := h.encoded
      obtain ⟨node, hnode⟩ := ih (t, v) List.mem_cons_self
      obtain ⟨l, hl, hbytes⟩ := Write.exists_literal (hkeys (t, v) List.mem_cons_self)
      obtain ⟨more, htext, htwin, hdepth, hwithin⟩ := exists_fields
        (fun u hu => ih u (List.mem_cons_of_mem _ hu))
        (fun u hu => hkeys u (List.mem_cons_of_mem _ hu)) (layout.line indent)
      have htwins : TwinMembers ((t, v) :: ms) ((l.toText, node.value) :: more.members) :=
        ⟨hbytes.symm, hnode.twin, htwin⟩
      -- the keys are distinct, so no member takes the place of another
      have hdistinct : Members.Distinct ((l.toText, node.value) :: more.members) := by
        rw [Members.Distinct, ← htwins.keys_eq]
        exact h.keyed
      refine ⟨.object (layout.line (layout.inner indent)) l .none layout.gap node more, ?_, ?_, ?_,
        hnode.within, hwithin⟩
      · rw [Node.text, htext, hnode.text, hl, render]
        rfl
      · rw [Node.value, Members.ofList_of_distinct hdistinct]
        exact htwins
      · rw [Node.depth, hdepth, hnode.depth]
        rfl

open Value in
/-- **What is written for a value is in the grammar.** -/
theorem exists_node {v : Value} : v.Everywhere (Value.Fit allowNonFinite) → ∀ indent,
    ∃ node : Node, node.Renders layout indent allowNonFinite v := by
  induction v with
  | null => exact fun _ _ => ⟨.null, rfl, trivial, rfl, trivial⟩
  | boolean b => exact fun _ _ => ⟨.boolean b, rfl, rfl, rfl, trivial⟩
  | integer i =>
      intro _ _
      obtain ⟨n, htext, hwithin, hvalue⟩ := Write.exists_numberLiteral_integer i
      refine ⟨.number n, htext, ?_, rfl, hwithin⟩
      rw [Node.value, hvalue]
      rfl
  | floating x =>
      intro h _
      by_cases hx : x.isFinite = true
      · obtain ⟨n, htext, hwithin, hvalue⟩ := Write.exists_numberLiteral_floating hx
        refine ⟨.number n, htext, ?_, rfl, hwithin⟩
        rw [Node.value, hvalue]
        exact .inl rfl
      · obtain ⟨word, htext, hnumber⟩ :=
          Write.exists_word (Bool.eq_false_of_not_eq_true hx)
        exact ⟨.nonFinite word, htext, hnumber, rfl, h.self.allowed.resolve_left hx⟩
  | string t =>
      intro h _
      obtain ⟨l, htext, hbytes⟩ := Write.exists_literal h.self.encoded
      exact ⟨.string l, htext, hbytes.symm, rfl, trivial⟩
  | array items ih =>
      intro h indent
      exact exists_array fun v hv => ih v hv ((everywhere_array.mp h).2 v hv) _
  | object members ih =>
      intro h indent
      exact exists_object h.self fun m hm => ih m hm ((everywhere_object.mp h).2 m hm) _

end JsonTree
