import JsonTree.Proofs.Offence
import JsonTree.Proofs.Outcome
import JsonTree.Proofs.Reading

/-!
# Rejection — the first offence is the error

Where a document is well formed but asks too much, the reader hands out everything that comes before
the first offence, and the builder goes wrong there.

* `rejects_node`: building a value with an offence goes wrong at its first one.
* `parse_fault_eq`: a well formed document is rejected with its first offence, if there is one.
-/

namespace JsonTree

namespace Reader

open Ascii Bytes Build

/-! ### A document that is well formed -/

/-- A value stands at the cursor, and the second cursor behind it. -/
structure NodeHere (node : Node) (s s' : Session Reader) : Prop where
  passes : Passes node.text s s'
  ends : node.EndsBefore (rest s')
  worded : node.Worded s.state.options.allowNonFinite

/-- The items up to the end of an array stand at the cursor. -/
structure ItemsHere (more : Items) (s s' : Session Reader) : Prop where
  passes : Passes more.text s s'
  worded : more.Worded s.state.options.allowNonFinite

/-- The members up to the end of an object stand at the cursor. -/
structure FieldsHere (more : Fields) (s s' : Session Reader) : Prop where
  passes : Passes more.text s s'
  worded : more.Worded s.state.options.allowNonFinite

theorem Passes.position_eq {front : Bytes} {s s' : Session Reader} (h : Passes front s s') :
    s'.state.position = s.state.position + front.length := by
  rw [h.behind]
  rfl

/-- Where the blanks behind a mark end. -/
theorem Passes.position_blanks {w w' : Blanks} {b : UInt8} {s s₁ s₂ : Session Reader}
    (h : Passes (w.text ++ [b]) s s₁) (h' : Passes w'.text s₁ s₂) :
    s.state.position + (w.text.length + 1 + w'.text.length) = s₂.state.position := by
  rw [h'.position_eq, h.position_eq]
  simp only [List.length_append, List.length_singleton]
  omega

/-- Without an offence the value is all that is asked for. -/
theorem NodeHere.nodeAt {node : Node} {s s' : Session Reader} {limit depth offset : Nat}
    (h : NodeHere node s s') (hd : depth ≤ limit)
    (hnone : firstOffence? limit (node.sites depth offset) = none) :
    NodeAt node s s' ∧ depth + node.depth ≤ limit := by
  obtain ⟨hin, hdepth⟩ := Node.within_of_no_offence hd h.worded hnone
  exact ⟨⟨h.passes, h.ends, hin⟩, hdepth⟩

/-! ### Where the reader and the builder go wrong -/

/-- Building goes wrong in the part, and the error on record then is the offence. -/
def Rejects (limit depth : Nat) (stage : Stage) (s : Session Reader) (o : ErrorCode × Nat) : Prop :=
  ∃ s', Breaks tokens limit stage depth s s' ∧
    s'.fault = some (Error.locate s.state.source o.1 o.2)

/-- The value is announced, and building it goes wrong. -/
def NodeRejected (limit depth : Nat) (s : Session Reader) (o : ErrorCode × Nat) : Prop :=
  ∃ kind, Announces s.state.options.allowNonFinite kind (rest s) ∧
    Rejects limit depth (.value kind) s o

/-- The rest of an array goes wrong. -/
def ItemsRejected (limit depth : Nat) (s : Session Reader) (o : ErrorCode × Nat) : Prop :=
  ∃ next s₁, nextItem s = (next, s₁) ∧ s₁.failed = false ∧ s₁.state.source = s.state.source ∧
    Rejects limit depth (.items next) s₁ o

/-- The rest of an object goes wrong. -/
def FieldsRejected (limit depth : Nat) (s : Session Reader) (o : ErrorCode × Nat) : Prop :=
  ∃ next s₁, nextKey s = (next, s₁) ∧ s₁.failed = false ∧ s₁.state.source = s.state.source ∧
    Rejects limit depth (.members next) s₁ o

/-- An array or object beyond the limit goes wrong where it begins. -/
theorem rejects_deep {limit depth : Nat} {kind : Kind} {s : Session Reader}
    (hs : s.failed = false) (hk : kind = .array ∨ kind = .object) (hd : depth = limit) :
    Rejects limit depth (.value kind) s (.nestingTooDeep, s.state.position) :=
  ⟨_, .deep hk (by omega), fault_failHere hs .nestingTooDeep⟩

/-- A number without a meaning goes wrong where it begins. -/
theorem rejected_number {limit depth : Nat} {n : NumberLiteral} {s s' : Session Reader}
    {code : ErrorCode} (hs : s.failed = false) (h : NodeHere (.number n) s s')
    (ho : n.offence? = some code) : NodeRejected limit depth s (code, s.state.position) := by
  obtain ⟨hp, hends, -⟩ := h
  obtain rfl : s' = skip s n.text.length := hp.behind
  have hhere : NumberHere n s := numberHere_iff.mpr ⟨hp, hends⟩
  have ha := announces_number hhere s.state.options.allowNonFinite
  refine ⟨.number, ha, ?_⟩
  rw [NumberLiteral.offence?] at ho
  split at ho
  · next hi =>
      split at ho
      · cases ho
      · next hfits =>
          obtain rfl := Option.some.inj ho
          have hr : readInteger s = (.tooLarge, s) := by
            rw [readInteger_of_numberHere hhere, if_pos hi, Numeral.toInt64?_eq n.proper.whole,
              if_neg hfits]
          exact ⟨_, .tooLarge hr hs, fault_failHere hs .integerTooLarge⟩
  · next hi =>
      split at ho
      · cases ho
      · next hinf =>
          obtain rfl := Option.some.inj ho
          have hr : readInteger s = (.notInteger, s) := by
            rw [readInteger_of_numberHere hhere, if_neg hi]
          have hr' : readFloat s = (Binary64.zero, failHere s .numberOutOfRange) := by
            rw [readFloat_of_numberHere hhere, if_neg hinf]
          exact ⟨_, .float hr hs hr' (failed_failHere _ _), fault_failHere hs .numberOutOfRange⟩

/-- An item goes wrong, or one behind it. -/
theorem rejects_items {limit depth : Nat} {node : Node} {more : Items} {s s' : Session Reader}
    {o : ErrorCode × Nat} (hs : s.failed = false) (hd : depth ≤ limit)
    (hp : Passes (node.text ++ more.text) s s')
    (hw : node.Worded s.state.options.allowNonFinite)
    (hw' : more.Worded s.state.options.allowNonFinite)
    (ho : firstOffence? limit (node.sites depth s.state.position ++
      more.sites depth (s.state.position + node.text.length)) = some o)
    (ihNode : ∀ {s s'}, s.failed = false → NodeHere node s s' →
      firstOffence? limit (node.sites depth s.state.position) = some o →
      NodeRejected limit depth s o)
    (ihMore : ∀ {s s'}, s.failed = false → ItemsHere more s s' →
      firstOffence? limit (more.sites depth s.state.position) = some o →
      ItemsRejected limit depth s o) :
    ∃ kind, Announces s.state.options.allowNonFinite kind (rest s) ∧
      Rejects limit depth (.items (some kind)) s o := by
  obtain ⟨s₁, hnode, hmore⟩ := hp.split
  have here : NodeHere node s s₁ := ⟨hnode, endsBefore_items hmore node, hw⟩
  rw [firstOffence?_append, Option.or_eq_some_iff] at ho
  rcases ho with ho | ⟨hnone, ho⟩
  · obtain ⟨kind, ha, s₂, breaks, hfault⟩ := ihNode hs here ho
    exact ⟨kind, ha, s₂, .item breaks, hfault⟩
  · -- the item is handed out, and then those behind it go wrong
    obtain ⟨hat, hdepth⟩ := here.nodeAt hd hnone
    obtain ⟨kind, ha, hands⟩ := offers hs hat
    rw [← hnode.options_eq] at hw'
    rw [← hnode.position_eq] at ho
    obtain ⟨next, s₂, hnext, hs₂, hsource, s₃, breaks, hfault⟩ :=
      ihMore (hnode.failed_eq.trans hs) ⟨hmore, hw'⟩ ho
    rw [hsource, hnode.source_eq] at hfault
    exact ⟨kind, ha, s₃, .itemBehind hands hdepth hnext hs₂ breaks, hfault⟩

/-- A member goes wrong once its key has been read, or one behind it. -/
theorem rejects_members {limit depth : Nat} {l : StringLiteral} {w w₁ : Blanks} {node : Node}
    {more : Fields} {s s' : Session Reader} {o : ErrorCode × Nat} (hs : s.failed = false)
    (hd : depth ≤ limit)
    (hp : Passes (l.text ++ (w.text ++ colon :: (w₁.text ++ (node.text ++ more.text)))) s s')
    (hw : node.Worded s.state.options.allowNonFinite)
    (hw' : more.Worded s.state.options.allowNonFinite)
    (ho : firstOffence? limit (node.sites depth
        (s.state.position + (l.text.length + w.text.length + 1 + w₁.text.length)) ++
      more.sites depth (s.state.position +
        (l.text.length + w.text.length + 1 + w₁.text.length) + node.text.length)) = some o)
    (ihNode : ∀ {s s'}, s.failed = false → NodeHere node s s' →
      firstOffence? limit (node.sites depth s.state.position) = some o →
      NodeRejected limit depth s o)
    (ihMore : ∀ {s s'}, s.failed = false → FieldsHere more s s' →
      firstOffence? limit (more.sites depth s.state.position) = some o →
      FieldsRejected limit depth s o) :
    ∃ s₁, Passes (l.text ++ (w.text ++ [colon])) s s₁ ∧
      Rejects limit depth (.members (some (stringToken s l))) s₁ o := by
  rw [← List.append_assoc] at hp
  obtain ⟨s₁, hl, hp⟩ := hp.split_mark
  rw [List.append_assoc] at hl
  obtain ⟨s₂, hw₁, hp⟩ := hp.split
  obtain ⟨s₃, hnode, hmore⟩ := hp.split
  have hs₁ : s₁.failed = false := hl.failed_eq.trans hs
  have hs₂ : s₂.failed = false := hw₁.failed_eq.trans hs₁
  have hopt : s₂.state.options = s.state.options := hw₁.options_eq.trans hl.options_eq
  have hpos : s.state.position + (l.text.length + w.text.length + 1 + w₁.text.length) =
      s₂.state.position := by
    rw [hw₁.position_eq, hl.position_eq]
    simp only [List.length_append, List.length_singleton]
    omega
  rw [hpos] at ho
  rw [← hopt] at hw hw'
  have here : NodeHere node s₂ s₃ := ⟨hnode, endsBefore_fields hmore node, hw⟩
  have peeks : ∀ {kind}, Announces s₂.state.options.allowNonFinite kind (rest s₂) →
      peek s₁ = (kind, s₂) := fun ha =>
    ((peek_eq_iff hs₁).mpr (begins_iff_passes.mpr ⟨w₁, hw₁, ha⟩)).1
  refine ⟨s₁, hl, ?_⟩
  rw [firstOffence?_append, Option.or_eq_some_iff] at ho
  rcases ho with ho | ⟨hnone, ho⟩
  · obtain ⟨kind, ha, s₄, breaks, hfault⟩ := ihNode hs₂ here ho
    rw [hw₁.source_eq] at hfault
    exact ⟨s₄, .member (peeks ha) hs₂ breaks, hfault⟩
  · obtain ⟨hat, hdepth⟩ := here.nodeAt hd hnone
    obtain ⟨kind, ha, hands⟩ := offers hs₂ hat
    rw [← hnode.options_eq] at hw'
    rw [← hnode.position_eq] at ho
    obtain ⟨next, s₄, hnext, hs₄, hsource, s₅, breaks, hfault⟩ :=
      ihMore (hnode.failed_eq.trans hs₂) ⟨hmore, hw'⟩ ho
    rw [hsource, hnode.source_eq, hw₁.source_eq] at hfault
    exact ⟨s₅, .memberBehind (peeks ha) hs₂ hands hdepth hnext hs₄ breaks, hfault⟩

mutual

/-- **A value with an offence goes wrong at its first one.** -/
theorem rejects_node {limit depth : Nat} {s s' : Session Reader} {o : ErrorCode × Nat}
    (hs : s.failed = false) (hd : depth ≤ limit) :
    ∀ {node : Node}, NodeHere node s s' →
      firstOffence? limit (node.sites depth s.state.position) = some o →
      NodeRejected limit depth s o
  | .number n, h, ho => by
      change firstOffence? limit [⟨.number n, depth, _⟩] = some o at ho
      rw [firstOffence?_singleton] at ho
      obtain ⟨code, hcode, rfl⟩ := Option.map_eq_some_iff.mp ho
      exact rejected_number hs h hcode
  | .emptyArray w, h, ho => by
      change firstOffence? limit [⟨.emptyArray w, depth, _⟩] = some o at ho
      rw [firstOffence?_container _ _ rfl] at ho
      split at ho
      · next hdeep =>
          obtain rfl := Option.some.inj ho
          refine ⟨.array, ?_, rejects_deep hs (.inl rfl) hdeep⟩
          rw [h.passes.uncons.1]
          exact .array _
      · cases ho
  | .emptyObject w, h, ho => by
      change firstOffence? limit [⟨.emptyObject w, depth, _⟩] = some o at ho
      rw [firstOffence?_container _ _ rfl] at ho
      split at ho
      · next hdeep =>
          obtain rfl := Option.some.inj ho
          refine ⟨.object, ?_, rejects_deep hs (.inr rfl) hdeep⟩
          rw [h.passes.uncons.1]
          exact .object _
      · cases ho
  | .array w first more, ⟨hp, _, hfirst, hmore⟩, ho => by
      obtain ⟨hrest, htail⟩ := hp.uncons
      refine ⟨.array, by rw [hrest]; exact .array _, ?_⟩
      rw [Node.sites, firstOffence?_container _ _ rfl] at ho
      split at ho
      · next hdeep =>
          obtain rfl := Option.some.inj ho
          exact rejects_deep hs (.inl rfl) hdeep
      · next hdeep =>
          obtain ⟨s₁, hw, htail⟩ := htail.split
          have hopt : s₁.state.options = s.state.options := hw.options_eq
          have hpos : s.state.position + (1 + w.text.length) = s₁.state.position := by
            rw [hw.position_eq, ← Nat.add_assoc]
            rfl
          rw [hpos] at ho
          obtain ⟨kind, ha, s₂, breaks, hfault⟩ := rejects_items (hw.failed_eq.trans hs)
            (by omega) htail (hopt ▸ hfirst) (hopt ▸ hmore) ho
            (fun hs => rejects_node hs (by omega)) (fun hs => rejects_more hs (by omega))
          obtain ⟨hopen, hs₁⟩ := (openArray_eq_iff hs).mpr
            ⟨⟨_, hrest⟩, .inr ⟨kind, rfl, begins_iff_passes.mpr ⟨w, hw, ha⟩⟩⟩
          rw [hw.source_eq] at hfault
          exact ⟨s₂, .array (by omega) hopen hs₁ breaks, hfault⟩
  | .object w key w₁ w₂ first more, ⟨hp, _, hfirst, hmore⟩, ho => by
      obtain ⟨hrest, htail⟩ := hp.uncons
      refine ⟨.object, by rw [hrest]; exact .object _, ?_⟩
      rw [Node.sites, firstOffence?_container _ _ rfl] at ho
      split at ho
      · next hdeep =>
          obtain rfl := Option.some.inj ho
          exact rejects_deep hs (.inr rfl) hdeep
      · next hdeep =>
          obtain ⟨s₁, hw, htail⟩ := htail.split
          have hopt : s₁.state.options = s.state.options := hw.options_eq
          have hpos : s.state.position + (1 + w.text.length) = s₁.state.position := by
            rw [hw.position_eq, ← Nat.add_assoc]
            rfl
          rw [hpos] at ho
          obtain ⟨s₂, hkey, s₃, breaks, hfault⟩ := rejects_members (hw.failed_eq.trans hs)
            (by omega) htail (hopt ▸ hfirst) (hopt ▸ hmore) ho
            (fun hs => rejects_node hs (by omega)) (fun hs => rejects_fields hs (by omega))
          obtain ⟨hopen, hs₂⟩ := (openObject_eq_iff hs).mpr
            ⟨⟨_, hrest⟩, .inr ⟨key, _, rfl, key_iff_passes.mpr ⟨w, w₁, s₁, hw, rfl, hkey⟩⟩⟩
          rw [hkey.source_eq, hw.source_eq] at hfault
          exact ⟨s₃, .object (by omega) hopen hs₂ breaks, hfault⟩

/-- The rest of an array with an offence goes wrong at its first one. -/
theorem rejects_more {limit depth : Nat} {s s' : Session Reader} {o : ErrorCode × Nat}
    (hs : s.failed = false) (hd : depth ≤ limit) :
    ∀ {more : Items}, ItemsHere more s s' →
      firstOffence? limit (more.sites depth s.state.position) = some o →
      ItemsRejected limit depth s o
  | .comma w w' item more, ⟨hp, hitem, hmore⟩, ho => by
      obtain ⟨s₁, hcomma, htail⟩ := hp.split_mark
      obtain ⟨s₂, hw', htail⟩ := htail.split
      have hopt : s₂.state.options = s.state.options := hw'.options_eq.trans hcomma.options_eq
      rw [Items.sites, hcomma.position_blanks hw'] at ho
      obtain ⟨kind, ha, s₃, breaks, hfault⟩ := rejects_items
        (hw'.failed_eq.trans (hcomma.failed_eq.trans hs)) hd htail (hopt ▸ hitem) (hopt ▸ hmore) ho
        (fun hs => rejects_node hs hd) (fun hs => rejects_more hs hd)
      obtain ⟨hnext, hs₂⟩ := (nextItem_eq_iff hs).mpr (.inr ⟨kind, s₁, rfl,
        mark_iff_passes.mpr ⟨w, hcomma⟩, begins_iff_passes.mpr ⟨w', hw', ha⟩⟩)
      exact ⟨some kind, s₂, hnext, hs₂, hw'.source_eq.trans hcomma.source_eq, s₃, breaks, hfault⟩

/-- The rest of an object with an offence goes wrong at its first one. -/
theorem rejects_fields {limit depth : Nat} {s s' : Session Reader} {o : ErrorCode × Nat}
    (hs : s.failed = false) (hd : depth ≤ limit) :
    ∀ {more : Fields}, FieldsHere more s s' →
      firstOffence? limit (more.sites depth s.state.position) = some o →
      FieldsRejected limit depth s o
  | .comma w w' key w₁ w₂ item more, ⟨hp, hitem, hmore⟩, ho => by
      obtain ⟨s₁, hcomma, htail⟩ := hp.split_mark
      obtain ⟨s₂, hw', htail⟩ := htail.split
      have hopt : s₂.state.options = s.state.options := hw'.options_eq.trans hcomma.options_eq
      rw [Fields.sites, hcomma.position_blanks hw'] at ho
      obtain ⟨s₃, hkey, s₄, breaks, hfault⟩ := rejects_members
        (hw'.failed_eq.trans (hcomma.failed_eq.trans hs)) hd htail (hopt ▸ hitem) (hopt ▸ hmore) ho
        (fun hs => rejects_node hs hd) (fun hs => rejects_fields hs hd)
      obtain ⟨hnext, hs₃⟩ := (nextKey_eq_iff hs).mpr (.inr ⟨key, _, s₁, rfl,
        mark_iff_passes.mpr ⟨w, hcomma⟩, key_iff_passes.mpr ⟨w', w₁, s₂, hw', rfl, hkey⟩⟩)
      exact ⟨some _, s₃, hnext, hs₃,
        hkey.source_eq.trans (hw'.source_eq.trans hcomma.source_eq), s₄, breaks, hfault⟩

end

/-! ### Whole documents -/

/-- **A well formed document is rejected with its first offence**, and accepted when it has none. -/
theorem parse_fault_eq {source : Slice} {options : ReadOptions} {d : Derivation}
    (hbytes : source.bytes = d.text) (hworded : d.root.Worded options.allowNonFinite) :
    (parse source options).fault = (firstOffence? options.maxDepth d.sites).map fun o =>
      Error.locate source o.1 o.2 := by
  have hstops : Stops Numeral.isPart d.after.text := stops_isPart_blanks d.after
  cases ho : firstOffence? options.maxDepth d.sites with
  | none =>
      obtain ⟨hin, hdepth⟩ := Node.within_of_no_offence (Nat.zero_le _) hworded ho
      have hread : parse source options = ⟨d.value, none⟩ := by
        refine parse_eq_ok_iff.mpr ⟨d, [], ?_, ?_, stops_nil _, fun _ => rfl, ⟨hin, by omega⟩, rfl⟩
        · rw [hbytes, List.append_nil]
        · rw [List.append_nil]
          exact endsBefore_of_stops d.root hstops
      rw [hread]
      rfl
  | some o =>
      have hs : (start source options).failed = false := rfl
      have hrest : rest (start source options) = d.text := (rest_start source options).trans hbytes
      have hall : Passes (d.before.text ++ (d.root.text ++ d.after.text)) (start source options)
          (skip (start source options) d.text.length) :=
        .of_rest (hrest.trans (List.append_nil _).symm)
      obtain ⟨s₁, hbefore, htail⟩ := hall.split
      obtain ⟨s₂, hroot, hafter⟩ := htail.split
      have hopt : s₁.state.options = options := hbefore.options_eq
      have hs₁ : s₁.failed = false := hbefore.failed_eq
      have hpos : s₁.state.position = d.before.text.length := by
        rw [hbefore.position_eq]
        exact Nat.zero_add _
      have here : NodeHere d.root s₁ s₂ := by
        refine ⟨hroot, endsBefore_of_stops d.root ?_, hopt ▸ hworded⟩
        have hback : rest (skip (start source options) d.text.length) = [] :=
          rest_skip (hrest.trans (List.append_nil _).symm)
        rw [hafter.rest_eq, hback, List.append_nil]
        exact hstops
      -- the root stands behind the blanks, and building it breaks off at the offence
      rw [Derivation.sites, ← hpos] at ho
      obtain ⟨kind, ha, s', breaks, hfault⟩ := rejects_node hs₁ (Nat.zero_le _) here ho
      obtain ⟨hpeek, -⟩ := (peek_eq_iff hs).mpr
        (begins_iff_passes.mpr ⟨d.before, hbefore, ha⟩)
      have hbuild : build options.maxDepth (start source options) = (.null, s') :=
        bounded.build_of_breaks ⟨kind, s₁, hpeek, .inr ⟨hs₁, breaks⟩⟩
      have hsource : s₁.state.source = source := hbefore.source_eq
      rw [hsource] at hfault
      rw [parse]
      dsimp only
      rw [hbuild, if_pos breaks.failed, hfault]
      rfl

end Reader

/-- **A well formed document that is rejected is so for its first offence.**  The error is none
against the form; it has the place where the value that offends begins, and every other value that
offends, one that a repeated key puts out of force included, begins further right. -/
theorem first_offence_is_reported {source : Slice} {options : ReadOptions} {d : Derivation}
    (hbytes : source.bytes = d.text) (hworded : d.root.Worded options.allowNonFinite) {e : Error}
    (herror : (parse source options).fault = some e) :
    e.code.category ≠ .lexical ∧
      ∃ site ∈ d.sites, site.node.offence? options.maxDepth site.depth = some e.code ∧
        e = Error.locate source e.code site.offset ∧
        (∃ back, source.rest site.offset = site.node.text ++ back) ∧
        ∀ other ∈ d.sites, (other.node.offence? options.maxDepth other.depth).isSome →
          other = site ∨ site.offset < other.offset := by
  rw [Reader.parse_fault_eq hbytes hworded] at herror
  obtain ⟨⟨code, offset⟩, ho, rfl⟩ := Option.map_eq_some_iff.mp herror
  obtain ⟨site, hmem, hcode, rfl, hfirst⟩ :=
    exists_of_firstOffence? (Node.sites_pairwise _ _ d.root) ho
  refine ⟨Node.category_of_offence? hcode, site, hmem, hcode, rfl, ?_, hfirst⟩
  obtain ⟨back, hrest⟩ := Derivation.exists_rest_of_mem_sites hmem
  exact ⟨back, by rw [Slice.rest, hbytes, hrest]⟩

/-- The document `\x7b"":[-9223372036854775809],"":[[]]\x7d`: the integer is out of force, since its
key comes again, and the innermost array is opened at the third depth. -/
def outOfForce : Derivation where
  before := .none
  root := .object .none ⟨[], by simp⟩ .none .none
    (.array .none (.number ⟨⟨true, Bytes.ofString "9223372036854775809", none, none⟩,
      ⟨⟨by decide, List.all_eq_true.mp (by decide)⟩, by decide, by simp, by simp⟩⟩) (.close .none))
    (.comma .none .none ⟨[], by simp⟩ .none .none
      (.array .none (.emptyArray .none) (.close .none)) (.close .none))
  after := .none

theorem first_offence_is_reported_outOfForce :
    (parse (.ofBytes 0 outOfForce.text) ⟨2, true, false⟩).fault = some ⟨.integerTooLarge, 5, 1, 6⟩ ∧
      ErrorCode.integerTooLarge.category ≠ .lexical ∧
      ∃ site ∈ outOfForce.sites, site.node.offence? 2 site.depth = some .integerTooLarge ∧
        ⟨.integerTooLarge, 5, 1, 6⟩ =
          Error.locate (.ofBytes 0 outOfForce.text) .integerTooLarge site.offset ∧
        (∃ back, (Slice.ofBytes 0 outOfForce.text).rest site.offset = site.node.text ++ back) ∧
        ∀ other ∈ outOfForce.sites, (other.node.offence? 2 other.depth).isSome →
          other = site ∨ site.offset < other.offset := by
  have herror : (parse (.ofBytes 0 outOfForce.text) ⟨2, true, false⟩).fault =
      some ⟨.integerTooLarge, 5, 1, 6⟩ := by rfl
  have hworded : outOfForce.root.Worded false := by
    simp [outOfForce, Node.Worded, Items.Worded, Fields.Worded]
  exact ⟨herror, first_offence_is_reported rfl hworded herror⟩

end JsonTree
