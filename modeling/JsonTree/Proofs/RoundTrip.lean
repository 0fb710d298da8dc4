import JsonTree.Proofs.Reading
import JsonTree.Proofs.Written

/-!
# Round trip — what is written is read back, and what is read can be written

Writing and reading ask the same of a value: well formed texts, distinct keys, a bounded depth, and
finite numbers unless others are allowed.  What a derivation means always keeps to that
(`Node.everywhere_fit`), and what is written for a value that does has a derivation, which means a
twin of the value (`parse_render`).

* `parse_write`: what is written for a value is read as its twin, in either layout.
* `parse_keeps`: what has been read can be written and read again.
-/

namespace JsonTree

open Bytes Value

/-! ### What a derivation means -/

theorem ascii_of_mem_escapeLetters : ∀ p ∈ escapeLetters, p.2 ≤ 0x7F := by
  have hall : escapeLetters.all (fun p => decide (p.2 ≤ 0x7F)) = true := by decide
  exact fun p hp => of_decide_eq_true (List.all_eq_true.mp hall p hp)

/-- The bytes that pieces mean are well formed. -/
theorem Pieces.wellFormed_bytes {ps : List Piece} (h : ∀ p ∈ ps, p.Legal) :
    Utf8.WellFormed (Pieces.bytes ps) := by
  induction ps with
  | nil => exact .nil
  | cons p ps ih =>
      have hps := ih fun q hq => h q (List.mem_cons_of_mem _ hq)
      rw [Pieces.bytes_cons]
      rcases h p List.mem_cons_self with ⟨he, -, -, -⟩ | hescape
      · exact .cons he hps
      · cases hescape with
        | @letter b c hmem =>
            have hc : c ≤ 0x7F := ascii_of_mem_escapeLetters _ hmem
            exact .cons (.one hc) hps
        | unit _ he => exact .cons he hps
        | pair _ _ _ _ he => exact .cons he hps

theorem StringLiteral.wellFormed_bytes (l : StringLiteral) : Utf8.WellFormed l.bytes :=
  Pieces.wellFormed_bytes l.legal

theorem NumberLiteral.fit_value {n : NumberLiteral} {allowNonFinite : Bool} (h : n.Within) :
    n.value.Everywhere (Fit allowNonFinite) := by
  rw [NumberLiteral.value]
  split
  · exact everywhere_integer.mpr ⟨trivial, trivial, trivial⟩
  · next hi =>
      have hfinite : n.nearest.isFinite = true := (if_neg hi).mp h
      exact everywhere_floating.mpr ⟨trivial, trivial, .inl hfinite⟩

mutual

/-- **What a value of the grammar means is fit to be written.** -/
theorem Node.everywhere_fit {allowNonFinite : Bool} : ∀ {node : Node},
    node.Within allowNonFinite → node.value.Everywhere (Fit allowNonFinite)
  | .null, _ => everywhere_null.mpr ⟨trivial, trivial, trivial⟩
  | .boolean _, _ => everywhere_boolean.mpr ⟨trivial, trivial, trivial⟩
  | .number _, h => NumberLiteral.fit_value h
  | .nonFinite _, h => everywhere_floating.mpr ⟨trivial, trivial, .inr h⟩
  | .string l, _ => everywhere_string.mpr ⟨l.wellFormed_bytes, trivial, trivial⟩
  | .emptyArray _, _ => everywhere_array.mpr ⟨⟨trivial, trivial, trivial⟩, List.forall_mem_nil _⟩
  | .array _ _ _, ⟨hfirst, hmore⟩ =>
      everywhere_array.mpr ⟨⟨trivial, trivial, trivial⟩,
        List.forall_mem_cons.mpr ⟨Node.everywhere_fit hfirst, Items.everywhere_fit hmore⟩⟩
  | .emptyObject _, _ => everywhere_object.mpr
      ⟨⟨List.forall_mem_nil _, List.nodup_nil, trivial⟩, List.forall_mem_nil _⟩
  | .object _ key _ _ first more, ⟨hfirst, hmore⟩ => by
      have hmembers : ∀ m ∈ (key.toText, first.value) :: more.members,
          Utf8.WellFormed m.1.bytes ∧ m.2.Everywhere (Fit allowNonFinite) :=
        List.forall_mem_cons.mpr
          ⟨⟨key.wellFormed_bytes, Node.everywhere_fit hfirst⟩, Fields.everywhere_fit hmore⟩
      have hall := @Members.of_mem_ofList (fun t => Utf8.WellFormed t.bytes)
        (fun v => v.Everywhere (Fit allowNonFinite)) _ hmembers
      exact everywhere_object.mpr ⟨⟨fun m hm => (hall m hm).1, Members.distinct_ofList _, trivial⟩,
        fun m hm => (hall m hm).2⟩

/-- What items mean is fit to be written. -/
theorem Items.everywhere_fit {allowNonFinite : Bool} : ∀ {more : Items},
    more.Within allowNonFinite → ∀ v ∈ more.values, v.Everywhere (Fit allowNonFinite)
  | .close _, _ => List.forall_mem_nil _
  | .comma _ _ _ _, ⟨hitem, hmore⟩ =>
      List.forall_mem_cons.mpr ⟨Node.everywhere_fit hitem, Items.everywhere_fit hmore⟩

/-- What members mean is fit to be written. -/
theorem Fields.everywhere_fit {allowNonFinite : Bool} : ∀ {more : Fields},
    more.Within allowNonFinite → ∀ m ∈ more.members,
      Utf8.WellFormed m.1.bytes ∧ m.2.Everywhere (Fit allowNonFinite)
  | .close _, _ => List.forall_mem_nil _
  | .comma _ _ key _ _ _ _, ⟨hitem, hmore⟩ =>
      List.forall_mem_cons.mpr
        ⟨⟨key.wellFormed_bytes, Node.everywhere_fit hitem⟩, Fields.everywhere_fit hmore⟩

end

theorem NumberLiteral.depth_value (n : NumberLiteral) : n.value.depth = 0 := by
  rw [NumberLiteral.value]
  split
  · rfl
  · rfl

mutual

/-- A value is nested no deeper than what it was read from; a repeated key drops what was there. -/
theorem Node.depth_value_le : ∀ node : Node, node.value.depth ≤ node.depth
  | .null | .boolean _ | .nonFinite _ | .string _ => by simp [Node.value, Value.depth]
  | .number n => Nat.le_of_eq n.depth_value
  | .emptyArray _ | .emptyObject _ => Nat.le_refl 1
  | .array _ first more => by
      have hfirst := Node.depth_value_le first
      have hmore := itemsDepth_le_iff.mpr (Items.depth_value_le more)
      rw [Node.value, Node.depth, Value.depth, itemsDepth]
      omega
  | .object _ key _ _ first more => by
      -- what is left of repeated keys is among the values that were written
      have hmembers : ∀ m ∈ (key.toText, first.value) :: more.members,
          True ∧ m.2.depth ≤ max first.depth more.depth := by
        refine List.forall_mem_cons.mpr ⟨⟨trivial, ?_⟩, fun m hm => ⟨trivial, ?_⟩⟩
        · exact Nat.le_trans (Node.depth_value_le first) (Nat.le_max_left _ _)
        · exact Nat.le_trans (Fields.depth_value_le more m hm) (Nat.le_max_right _ _)
      have hall := @Members.of_mem_ofList (fun _ => True)
        (fun v => v.depth ≤ max first.depth more.depth) _ hmembers
      rw [Node.value, Node.depth, Value.depth]
      exact Nat.succ_le_succ (membersDepth_le_iff.mpr fun m hm => (hall m hm).2)

/-- The same of items. -/
theorem Items.depth_value_le : ∀ more : Items, ∀ v ∈ more.values, v.depth ≤ more.depth
  | .close _ => List.forall_mem_nil _
  | .comma _ _ item more => List.forall_mem_cons.mpr
      ⟨Nat.le_trans (Node.depth_value_le item) (Nat.le_max_left _ _),
        fun v hv => Nat.le_trans (Items.depth_value_le more v hv) (Nat.le_max_right _ _)⟩

/-- The same of members. -/
theorem Fields.depth_value_le : ∀ more : Fields, ∀ m ∈ more.members, m.2.depth ≤ more.depth
  | .close _ => List.forall_mem_nil _
  | .comma _ _ _ _ _ item more => List.forall_mem_cons.mpr
      ⟨Nat.le_trans (Node.depth_value_le item) (Nat.le_max_left _ _),
        fun m hm => Nat.le_trans (Fields.depth_value_le more m hm) (Nat.le_max_right _ _)⟩

end

/-- **What is read is fit to be written**, and not nested beyond the limit. -/
theorem fit_of_parse {source : Slice} {options : ReadOptions} {v : Value}
    (h : parse source options = ⟨v, none⟩) :
    v.Everywhere (Fit options.allowNonFinite) ∧ v.depth ≤ options.maxDepth := by
  obtain ⟨d, back, -, -, -, -, hwithin, rfl⟩ := parse_eq_ok_iff.mp h
  exact ⟨Node.everywhere_fit hwithin.numbers,
    Nat.le_trans (Node.depth_value_le d.root) hwithin.depth⟩

/-! ### Reading what has been written -/

/-- **What is written for a value is read as its twin.** -/
theorem parse_render {v : Value} {options : ReadOptions} {layout : Layout} {source : Slice}
    (hfit : v.Everywhere (Fit options.allowNonFinite)) (hdepth : v.depth ≤ options.maxDepth)
    (hsource : source.bytes = v.render layout 0) :
    ∃ w, parse source options = ⟨w, none⟩ ∧ v.Twin w := by
  obtain ⟨node, hnode⟩ : ∃ node : Node, node.Renders layout 0 options.allowNonFinite v :=
    exists_node hfit 0
  refine ⟨node.value, parse_eq_ok_iff.mpr
    ⟨⟨.none, node, .none⟩, [], ?_, ?_, stops_nil _, fun _ => rfl, ⟨hnode.within, ?_⟩, rfl⟩,
    hnode.twin⟩
  · rw [hsource, ← hnode.text]
    simp [Derivation.text, Blanks.none]
  · exact Reader.endsBefore_of_stops node (stops_nil _)
  · rw [hnode.depth]
    exact hdepth

/-- **Round trip.**  Let a value have well formed texts and distinct keys, let its nesting be within
the reader's limit, and let its floating point numbers be finite unless both the writer and the
reader allow others.  Then it can be written, in either layout, and what is written is read as its
twin.  The twin is equal to the value when that holds no not-a-number, and is written alike. -/
theorem parse_write {v : Value} {writing : WriteOptions} {reading : ReadOptions}
    (hencoded : v.Everywhere Encoded) (hkeyed : v.Everywhere Keyed)
    (hdepth : v.depth ≤ reading.maxDepth)
    (hallowed : v.Everywhere (Allowed (writing.allowNonFinite && reading.allowNonFinite))) :
    ∃ text, v.write writing = .ok text ∧ ∀ source : Slice, source.bytes = text →
      ∃ w, parse source reading = ⟨w, none⟩ ∧ v.Twin w ∧
        (v.Everywhere Numeric → w.equal v = true) ∧ w.write writing = .ok text := by
  have hwriting : v.Everywhere (Allowed writing.allowNonFinite) :=
    hallowed.mono fun u hu => hu.of_and_left
  have hfit : v.Everywhere (Fit reading.allowNonFinite) := fun u hu =>
    ⟨hencoded u hu, hkeyed u hu, (hallowed u hu).of_and_right⟩
  have hwrite : v.write writing = .ok (v.render writing.layout 0) :=
    write_eq_ok_iff.mpr ⟨hwriting, rfl⟩
  refine ⟨_, hwrite, fun source hsource => ?_⟩
  obtain ⟨w, hparse, htwin⟩ := parse_render hfit hdepth hsource
  exact ⟨w, hparse, htwin, fun hnumeric => htwin.equal hnumeric hkeyed,
    htwin.write_eq_ok hwrite⟩

/-- An array in an object: a quote, an infinity and a negative integer. -/
def quoteAndInfinity : Value :=
  .object [(.own [0x61],
    .array [.string (.own [0x22]), .floating Binary64.infinity, .integer (-1)])]

theorem parse_write_quoteAndInfinity : ∃ text, quoteAndInfinity.write ⟨.pretty, true⟩ = .ok text ∧
    ∀ source : Slice, source.bytes = text →
      ∃ w, parse source ⟨2, true, true⟩ = ⟨w, none⟩ ∧ quoteAndInfinity.Twin w ∧
        (quoteAndInfinity.Everywhere Numeric → w.equal quoteAndInfinity = true) ∧
        w.write ⟨.pretty, true⟩ = .ok text := by
  have hascii : ∀ b : UInt8, b ≤ 0x7F → Utf8.WellFormed [b] := fun b hb => .cons (.one hb) .nil
  have hletter := hascii 0x61 (by decide)
  have hquote := hascii 0x22 (by decide)
  refine parse_write ?_ ?_ (by decide) ?_
  · simp [quoteAndInfinity, Encoded, Text.own, hletter, hquote]
  · simp [quoteAndInfinity, Keyed, Members.Distinct, Members.keys]
  · simp [quoteAndInfinity, Allowed]

/-- **What has been read can be written and read again.**  Its texts are well formed, its keys
distinct, its nesting within the limit, and its floating point numbers finite unless others are
allowed.  So under the same options it can be written in either layout, and what is written is
accepted. -/
theorem parse_keeps {source : Slice} {options : ReadOptions} {v : Value}
    (h : parse source options = ⟨v, none⟩) :
    v.Everywhere Encoded ∧ v.Everywhere Keyed ∧ v.depth ≤ options.maxDepth ∧
      v.Everywhere (Allowed options.allowNonFinite) ∧
      ∀ layout, ∃ text, v.write ⟨layout, options.allowNonFinite⟩ = .ok text ∧
        ∀ source' : Slice, source'.bytes = text → ∃ w, parse source' options = ⟨w, none⟩ := by
  obtain ⟨hfit, hdepth⟩ := fit_of_parse h
  have hallowed := hfit.mono fun u hu => hu.allowed
  refine ⟨hfit.mono fun u hu => hu.encoded, hfit.mono fun u hu => hu.keyed, hdepth, hallowed,
    fun layout => ⟨v.render layout 0, write_eq_ok_iff.mpr ⟨hallowed, rfl⟩,
      fun source' hsource' => ?_⟩⟩
  obtain ⟨w, hparse, -⟩ := parse_render hfit hdepth hsource'
  exact ⟨w, hparse⟩

theorem parse_keeps_emptyKey : ∃ v : Value, v.Everywhere Encoded ∧ v.Everywhere Keyed ∧ v.depth ≤ 2 ∧
    v.Everywhere (Allowed true) ∧
    ∀ layout, ∃ text, v.write ⟨layout, true⟩ = .ok text ∧
      ∀ source' : Slice, source'.bytes = text → ∃ w, parse source' ⟨2, false, true⟩ = ⟨w, none⟩ :=
  have h : parse (.ofBytes 0 (Bytes.ofString "[\x7b\"\":NaN\x7d,1] 2")) ⟨2, false, true⟩ =
      ⟨.array [.object [(.borrow [], .floating Binary64.nan)], .integer 1], none⟩ := rfl
  ⟨_, parse_keeps h⟩

end JsonTree
