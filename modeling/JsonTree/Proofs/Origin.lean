import JsonTree.Value.Edit
import JsonTree.Proofs.Association
import JsonTree.Proofs.Offence
import JsonTree.Proofs.Reading

/-!
# Origins — the literal that a text was read from

A path leads to a value inside a value, and by the same steps to a place in a document taken apart:
an index to the item that is written there, a key to the last of the members that are written with
it.  The key that an object keeps is another matter: it was read from the first of these members.

* `Site.follow?_value`: the value at the end of a path is what is written at the end of it.
* `Site.stands_of_follow?`: what a path leads to stands in the document at its offset.
* `Members.key?_ofList`: the key that is kept is the one that was given first.
* `texts_follow_their_literals`: every string, and every key that is kept, is a view exactly when no
  backslash stands in the literal it was read from.
-/

namespace JsonTree

open Ascii

/-! ### Paths in a value -/

namespace Value

/-- The value one step inside a value. -/
def child? : PathStep → Value → Option Value
  | .item i, array items => items[i]?
  | .key key, object members => Members.find? members key
  | _, _ => none

/-- The value at the end of a path. -/
def follow? (v : Value) : List PathStep → Option Value
  | [] => some v
  | step :: path => (v.child? step).bind fun w => w.follow? path

end Value

/-! ### Paths in a document -/

/-- A member as it is written: its key, the offset at which the key's literal begins, and the
value. -/
structure MemberSite where
  key : StringLiteral
  offset : Nat
  value : Site

namespace MemberSite

/-- The literal of the key is that of the given key. -/
def hasKey (key : Bytes) (m : MemberSite) : Bool :=
  m.key.bytes == key

/-- What the member means. -/
noncomputable def member (m : MemberSite) : Member :=
  (m.key.toText, m.value.node.value)

end MemberSite

/-- The items behind a first one, each where it begins. -/
def Items.places (depth offset : Nat) : Items → List Site
  | .close _ => []
  | .comma w w' item more =>
    ⟨item, depth, offset + (w.text.length + 1 + w'.text.length)⟩ ::
      more.places depth (offset + (w.text.length + 1 + w'.text.length) + item.text.length)

/-- The members behind a first one, each where it begins. -/
def Fields.places (depth offset : Nat) : Fields → List MemberSite
  | .close _ => []
  | .comma w w' key w₁ w₂ item more =>
    ⟨key, offset + (w.text.length + 1 + w'.text.length),
      ⟨item, depth, offset + (w.text.length + 1 + w'.text.length) +
        (key.text.length + w₁.text.length + 1 + w₂.text.length)⟩⟩ ::
      more.places depth (offset + (w.text.length + 1 + w'.text.length) +
        (key.text.length + w₁.text.length + 1 + w₂.text.length) + item.text.length)

namespace Site

/-- The items that are written in an array, in order. -/
def items : Site → List Site
  | ⟨.array w first more, depth, offset⟩ =>
    ⟨first, depth + 1, offset + (1 + w.text.length)⟩ ::
      more.places (depth + 1) (offset + (1 + w.text.length) + first.text.length)
  | _ => []

/-- The members that are written in an object, in order. -/
def members : Site → List MemberSite
  | ⟨.object w key w₁ w₂ first more, depth, offset⟩ =>
    ⟨key, offset + (1 + w.text.length),
      ⟨first, depth + 1, offset + (1 + w.text.length) +
        (key.text.length + w₁.text.length + 1 + w₂.text.length)⟩⟩ ::
      more.places (depth + 1) (offset + (1 + w.text.length) +
        (key.text.length + w₁.text.length + 1 + w₂.text.length) + first.text.length)
  | _ => []

/-- The first member that is written with a key. -/
def firstWith? (site : Site) (key : Bytes) : Option MemberSite :=
  site.members.find? (MemberSite.hasKey key)

/-- The last member that is written with a key. -/
def lastWith? (site : Site) (key : Bytes) : Option MemberSite :=
  site.members.reverse.find? (MemberSite.hasKey key)

/-- What is written one step inside a value; what counts under a key is the last member with it. -/
def child? : PathStep → Site → Option Site
  | .item i, site => site.items[i]?
  | .key key, site => (site.lastWith? key).map (·.value)

/-- What is written at the end of a path. -/
def follow? (site : Site) : List PathStep → Option Site
  | [] => some site
  | step :: path => (site.child? step).bind fun s => s.follow? path

end Site

/-- The value of a document. -/
def Derivation.top (d : Derivation) : Site :=
  ⟨d.root, 0, d.before.text.length⟩

/-! ### What is written at the end of a path -/

theorem Items.map_places (depth offset : Nat) (more : Items) :
    (more.places depth offset).map (·.node.value) = more.values := by
  cases more with
  | close w => rfl
  | comma w w' item more => exact congrArg (item.value :: ·) (map_places depth _ more)

theorem Fields.map_places (depth offset : Nat) (more : Fields) :
    (more.places depth offset).map (·.member) = more.members := by
  cases more with
  | close w => rfl
  | comma w w' key w₁ w₂ item more =>
      exact congrArg ((key.toText, item.value) :: ·) (map_places depth _ more)

namespace Site

/-- An array means the items that are written in it. -/
theorem value_array {w : Blanks} {first : Node} {more : Items} (depth offset : Nat) :
    (Node.array w first more).value =
      .array ((Site.items ⟨.array w first more, depth, offset⟩).map (·.node.value)) := by
  rw [Node.value, items, List.map_cons, Items.map_places]

/-- An object means the members that are written in it, given one after the other. -/
theorem value_object {w : Blanks} {key : StringLiteral} {w₁ w₂ : Blanks} {first : Node}
    {more : Fields} (depth offset : Nat) :
    (Node.object w key w₁ w₂ first more).value =
      .object (Members.ofList
        ((Site.members ⟨.object w key w₁ w₂ first more, depth, offset⟩).map (·.member))) := by
  rw [Node.value, members, List.map_cons, Fields.map_places]
  rfl

/-- The last member with a key gives the value that was given last. -/
theorem map_lastWith? (site : Site) (key : Bytes) :
    (site.lastWith? key).map (·.value.node.value) =
      Members.lastValue? (site.members.map (·.member)) key := by
  rw [lastWith?, Members.lastValue?, Members.find?, ← List.map_reverse, List.find?_map,
    Option.map_map]
  rfl

end Site

theorem NumberLiteral.child?_value (n : NumberLiteral) (step : PathStep) :
    n.value.child? step = none := by
  rw [NumberLiteral.value]
  split <;> cases step <;> rfl

namespace Site

/-- One step leads from what is written to what is written there. -/
theorem child?_value (site : Site) (step : PathStep) :
    (site.child? step).map (·.node.value) = site.node.value.child? step := by
  obtain ⟨node, depth, offset⟩ := site
  cases node with
  | array w first more =>
      rw [value_array depth offset]
      cases step with
      | item i => exact List.getElem?_map.symm
      | key key => rfl
  | object w key w₁ w₂ first more =>
      rw [value_object depth offset]
      cases step with
      | item i => rfl
      | key key =>
          rw [child?, Option.map_map, Value.child?, Members.find?_ofList]
          exact map_lastWith? _ key
  | number n =>
      rw [Node.value, n.child?_value]
      cases step <;> rfl
  | null | boolean | nonFinite | string | emptyArray | emptyObject => cases step <;> rfl

/-- **The value at the end of a path is what is written at the end of it.** -/
theorem follow?_value (path : List PathStep) (site : Site) :
    (site.follow? path).map (·.node.value) = site.node.value.follow? path := by
  induction path generalizing site with
  | nil => rfl
  | cons step path ih =>
      rw [follow?, Value.follow?, ← child?_value, Option.map_bind, Option.bind_map]
      exact congrArg _ (funext ih)

end Site

/-! ### Where it stands -/

/-- What stands behind something of a known length. -/
theorem Slice.rest_behind {source : Slice} {i n : Nat} {front back : Bytes}
    (h : source.rest i = front ++ back) (hn : n = front.length) : source.rest (i + n) = back :=
  hn ▸ Slice.rest_add_length h

/-- The value stands in the document at its offset. -/
def Site.Stands (site : Site) (source : Slice) : Prop :=
  ∃ back, source.rest site.offset = site.node.text ++ back

/-- The key and the value of a member stand in the document at their offsets. -/
structure MemberSite.Stands (m : MemberSite) (source : Slice) : Prop where
  key : ∃ back, source.rest m.offset = m.key.text ++ back
  value : m.value.Stands source

/-- A member that is written at an index stands there. -/
theorem MemberSite.stands_of_rest {source : Slice} {key : StringLiteral} {w₁ w₂ : Blanks}
    {node : Node} {depth offset : Nat} {back : Bytes}
    (h : source.rest offset = key.text ++ (w₁.text ++ colon :: (w₂.text ++ (node.text ++ back)))) :
    MemberSite.Stands ⟨key, offset,
        ⟨node, depth, offset + (key.text.length + w₁.text.length + 1 + w₂.text.length)⟩⟩ source ∧
      source.rest (offset + (key.text.length + w₁.text.length + 1 + w₂.text.length) +
        node.text.length) = back := by
  have hfront : source.rest offset =
      (key.text ++ (w₁.text ++ colon :: w₂.text)) ++ (node.text ++ back) := by
    rw [h]
    simp
  have hnode := Slice.rest_behind (n := key.text.length + w₁.text.length + 1 + w₂.text.length)
    hfront (by simp; omega)
  exact ⟨⟨⟨_, h⟩, ⟨_, hnode⟩⟩, Slice.rest_add_length hnode⟩

theorem Items.stands_of_mem_places {source : Slice} {site : Site} {depth offset : Nat}
    {back : Bytes} : ∀ {more : Items}, source.rest offset = more.text ++ back →
      site ∈ more.places depth offset → site.Stands source
  | .comma w w' item more, h, hmem => by
      have hfront : source.rest offset =
          (w.text ++ Ascii.comma :: w'.text) ++ (item.text ++ (more.text ++ back)) := by
        rw [h, Items.text]
        simp
      have hitem := Slice.rest_behind (n := w.text.length + 1 + w'.text.length) hfront
        (by simp; omega)
      rcases List.mem_cons.mp hmem with rfl | hmem
      · exact ⟨_, hitem⟩
      · exact Items.stands_of_mem_places (Slice.rest_add_length hitem) hmem

theorem Fields.stands_of_mem_places {source : Slice} {m : MemberSite} {depth offset : Nat}
    {back : Bytes} : ∀ {more : Fields}, source.rest offset = more.text ++ back →
      m ∈ more.places depth offset → m.Stands source
  | .comma w w' key w₁ w₂ item more, h, hmem => by
      have hfront : source.rest offset = (w.text ++ Ascii.comma :: w'.text) ++
          (key.text ++ (w₁.text ++ colon :: (w₂.text ++ (item.text ++ (more.text ++ back))))) := by
        rw [h, Fields.text]
        simp
      have hkey := Slice.rest_behind (n := w.text.length + 1 + w'.text.length) hfront
        (by simp; omega)
      obtain ⟨hstands, hmore⟩ := MemberSite.stands_of_rest hkey
      rcases List.mem_cons.mp hmem with rfl | hmem
      · exact hstands
      · exact Fields.stands_of_mem_places hmore hmem

namespace Site

/-- The items of an array that stands in the document stand there too. -/
theorem stands_of_mem_items {source : Slice} {site item : Site} (h : site.Stands source)
    (hmem : item ∈ site.items) : item.Stands source := by
  obtain ⟨node, depth, offset⟩ := site
  cases node with
  | array w first more =>
      obtain ⟨back, hr⟩ := h
      have hfront : source.rest offset =
          (openBracket :: w.text) ++ (first.text ++ (more.text ++ back)) := by
        simpa [Node.text] using hr
      have hfirst := Slice.rest_behind (n := 1 + w.text.length) hfront (by simp; omega)
      rcases List.mem_cons.mp hmem with rfl | hmem
      · exact ⟨_, hfirst⟩
      · exact Items.stands_of_mem_places (Slice.rest_add_length hfirst) hmem
  | null | boolean | number | nonFinite | string | emptyArray | emptyObject | object => cases hmem

/-- The members of an object that stands in the document stand there too. -/
theorem stands_of_mem_members {source : Slice} {site : Site} {m : MemberSite}
    (h : site.Stands source) (hmem : m ∈ site.members) : m.Stands source := by
  obtain ⟨node, depth, offset⟩ := site
  cases node with
  | object w key w₁ w₂ first more =>
      obtain ⟨back, hr⟩ := h
      have hfront : source.rest offset = (openBrace :: w.text) ++
          (key.text ++ (w₁.text ++ colon :: (w₂.text ++ (first.text ++ (more.text ++ back))))) := by
        simpa [Node.text] using hr
      have hkey := Slice.rest_behind (n := 1 + w.text.length) hfront (by simp; omega)
      obtain ⟨hstands, hmore⟩ := MemberSite.stands_of_rest hkey
      rcases List.mem_cons.mp hmem with rfl | hmem
      · exact hstands
      · exact Fields.stands_of_mem_places hmore hmem
  | null | boolean | number | nonFinite | string | emptyArray | emptyObject | array => cases hmem

/-- What is one step below a value that stands in the document stands there too. -/
theorem stands_of_child? {source : Slice} {site child : Site} {step : PathStep}
    (h : site.Stands source) (hchild : site.child? step = some child) : child.Stands source := by
  cases step with
  | item i => exact stands_of_mem_items h (List.mem_of_getElem? hchild)
  | key key =>
      obtain ⟨m, hm, rfl⟩ := Option.map_eq_some_iff.mp hchild
      exact (stands_of_mem_members h (List.mem_reverse.mp (List.mem_of_find?_eq_some hm))).value

/-- **What a path leads to stands in the document at its offset.** -/
theorem stands_of_follow? {source : Slice} {site found : Site} {path : List PathStep}
    (h : site.Stands source) (hfollow : site.follow? path = some found) : found.Stands source := by
  induction path generalizing site with
  | nil =>
      obtain rfl := Option.some.inj hfollow
      exact h
  | cons step path ih =>
      obtain ⟨child, hchild, hrest⟩ := Option.bind_eq_some_iff.mp hfollow
      exact ih (stands_of_child? h hchild) hrest

end Site

/-! ### The key that is kept -/

namespace Members

/-- The text of the first member with a key. -/
def key? (ms : List Member) (key : Bytes) : Option Text :=
  (List.find? (Member.hasKey key) ms).map (·.1)

theorem key?_cons (m : Member) (ms : List Member) (key : Bytes) :
    key? (m :: ms) key = if m.hasKey key then some m.1 else key? ms key := by
  rw [key?, List.find?_cons]
  cases hm : Member.hasKey key m <;> rfl

/-- A key is given a text only if it has none. -/
theorem key?_insert (ms : Members) (key : Text) (v : Value) (k : Bytes) :
    key? (ms.insert key v) k = (key? ms k).or (key? [(key, v)] k) := by
  induction ms with
  | nil => rfl
  | cons m ms ih =>
      rw [insert]
      split
      · next hm =>
          -- the member in whose place the value is put has the key, and keeps its text
          have hkey : m.1.bytes = key.bytes := by simpa [Member.hasKey] using hm
          have hkept : key? ((m.1, v) :: ms) k = key? (m :: ms) k := by
            rw [key?_cons, key?_cons]
            rfl
          rw [hkept]
          by_cases hk : key.bytes = k
          · rw [key?_cons, if_pos (by simp [Member.hasKey, hkey, hk])]
            rfl
          · have hnone : key? [(key, v)] k = none := by
              rw [key?_cons, if_neg (by simp [Member.hasKey, hk])]
              rfl
            rw [hnone, Option.or_none]
      · next hm =>
          rw [key?_cons, key?_cons m ms, ih]
          cases m.hasKey k <;> rfl

/-- **The key that is kept is the one that was given first.** -/
theorem key?_ofList (given : List Member) (k : Bytes) : key? (ofList given) k = key? given k := by
  induction given using List.reverseRecOn with
  | nil => rfl
  | append_singleton given m ih =>
      rw [ofList_concat, key?_insert, ih, key?, key?, key?, List.find?_append, Option.map_or]

/-- Each of several keys that differ is the only one of its bytes. -/
theorem key?_of_mem {ms : Members} (hd : ms.Distinct) {m : Member} (hm : m ∈ ms) :
    key? ms m.1.bytes = some m.1 := by
  induction ms with
  | nil => cases hm
  | cons m' ms ih =>
      rw [Distinct, keys_cons, List.nodup_cons] at hd
      rw [key?_cons]
      rcases List.mem_cons.mp hm with rfl | hm
      · exact if_pos (beq_self_eq_true _)
      · have hne : m'.1.bytes ≠ m.1.bytes := fun h =>
          hd.1 (h ▸ List.mem_map_of_mem (f := fun m : Member => m.1.bytes) hm)
        rw [if_neg (by simpa [Member.hasKey] using hne)]
        exact ih hd.2 hm

end Members

/-- What an object keeps as a key was read from the first member that is written with it. -/
theorem Site.exists_firstWith? {site : Site} {ms : Members} (h : site.node.value = .object ms)
    {m : Member} (hm : m ∈ ms) :
    ∃ written, site.firstWith? m.1.bytes = some written ∧ written.key.toText = m.1 := by
  obtain ⟨node, depth, offset⟩ := site
  cases node with
  | object w key w₁ w₂ first more =>
      rw [value_object depth offset] at h
      obtain rfl := Value.object.inj h
      have hkept := Members.key?_of_mem (Members.distinct_ofList _) hm
      rw [Members.key?_ofList, Members.key?, List.find?_map, Option.map_map] at hkept
      exact Option.map_eq_some_iff.mp hkept
  | emptyObject w =>
      obtain rfl := Value.object.inj h
      cases hm
  | number n =>
      rw [Node.value, NumberLiteral.value] at h
      split at h <;> cases h
  | null | boolean | nonFinite | string | emptyArray | array => cases h

/-- A string of the tree comes from a literal. -/
theorem Site.exists_literal {site : Site} {t : Text} (h : site.node.value = .string t) :
    ∃ l, site.node = .string l ∧ l.toText = t := by
  obtain ⟨node, depth, offset⟩ := site
  cases node with
  | string l => exact ⟨l, rfl, Value.string.inj h⟩
  | number n =>
      rw [Node.value, NumberLiteral.value] at h
      split at h <;> cases h
  | null | boolean | nonFinite | emptyArray | array | emptyObject | object => cases h

/-! ### Texts and literals -/

/-- A text was read from a literal at an offset of a document. -/
structure Text.ReadFrom (t : Text) (source : Slice) (l : StringLiteral) (offset : Nat) : Prop where
  /-- The literal stands in the document. -/
  stands : ∃ back, source.rest offset = l.text ++ back
  /-- The text is a view exactly when no backslash stands in the literal. -/
  borrowed_iff : t.borrowed = true ↔ backslash ∉ l.text
  /-- A view shows the bytes of the document between the literal's quotes. -/
  view : t.borrowed = true →
    t.bytes = (source.between (offset + 1) (offset + l.text.length - 1)).bytes
  /-- In any case the bytes are those that the literal stands for. -/
  decoded : t.bytes = l.bytes

theorem StringLiteral.hasEscape_eq_false_iff (l : StringLiteral) :
    l.hasEscape = false ↔ backslash ∉ l.text := by
  rw [hasEscape, ← Bool.not_eq_true, List.contains_iff_mem, text, List.mem_cons, List.mem_append,
    List.mem_singleton]
  have hquote : backslash ≠ quote := by decide
  simp [hquote]

/-- A literal that stands in a document is read as a text. -/
theorem StringLiteral.readFrom_toText {source : Slice} {l : StringLiteral} {offset : Nat}
    (h : ∃ back, source.rest offset = l.text ++ back) : l.toText.ReadFrom source l offset where
  stands := h
  borrowed_iff := by
    rw [← l.hasEscape_eq_false_iff, ← Bool.not_eq_true']
    rfl
  view hborrowed := by
    obtain ⟨back, hr⟩ := h
    have hescape : l.hasEscape = false := by simpa [StringLiteral.toText] using hborrowed
    have hplain := (Literal.contains_backslash_eq_false_iff l.legal).mp hescape
    have hquote : source.rest offset = [quote] ++ (Pieces.text l.pieces ++ quote :: back) := by
      rw [hr, StringLiteral.text]
      simp
    have hinside := Slice.rest_behind (n := 1) hquote rfl
    have hstop : offset + l.text.length - 1 = offset + 1 + (Pieces.text l.pieces).length := by
      rw [Literal.length_text]
      rfl
    rw [hstop, Slice.bytes_between hinside]
    exact Pieces.bytes_of_plain hplain
  decoded := rfl

/-- The texts of a value follow the literals of a document, whose own value is written at `top`. -/
structure Value.Follows (v : Value) (source : Slice) (top : Site) : Prop where
  /-- Paths lead to what is written. -/
  values : ∀ path, v.follow? path = (top.follow? path).map (·.node.value)
  /-- A string was read from the literal that is written where it is. -/
  strings : ∀ path t, v.follow? path = some (.string t) →
    ∃ l depth offset, top.follow? path = some ⟨.string l, depth, offset⟩ ∧
      t.ReadFrom source l offset
  /-- A key that an object keeps was read from the first literal that is written there for it. -/
  keys : ∀ path ms, v.follow? path = some (.object ms) → ∃ site, top.follow? path = some site ∧
    ∀ m ∈ ms, ∃ written, site.firstWith? m.1.bytes = some written ∧
      m.1.ReadFrom source written.key written.offset

/-- What is written in a document is followed by its value. -/
theorem Site.follows {source : Slice} {top : Site} (h : top.Stands source) :
    top.node.value.Follows source top where
  values path := (follow?_value path top).symm
  strings path t hpath := by
    rw [← follow?_value] at hpath
    obtain ⟨⟨node, depth, offset⟩, hsite, hvalue⟩ := Option.map_eq_some_iff.mp hpath
    obtain ⟨l, rfl, rfl⟩ := exists_literal hvalue
    have hstands : ∃ back, source.rest offset = l.text ++ back := stands_of_follow? h hsite
    exact ⟨l, depth, offset, hsite, StringLiteral.readFrom_toText hstands⟩
  keys path ms hpath := by
    rw [← follow?_value] at hpath
    obtain ⟨site, hsite, hvalue⟩ := Option.map_eq_some_iff.mp hpath
    refine ⟨site, hsite, fun m hm => ?_⟩
    obtain ⟨written, hwritten, hkey⟩ := exists_firstWith? hvalue hm
    have hmem : written ∈ site.members := List.mem_of_find?_eq_some hwritten
    rw [← hkey] at hwritten ⊢
    exact ⟨written, hwritten, StringLiteral.readFrom_toText
      (stands_of_mem_members (stands_of_follow? h hsite) hmem).key⟩

/-- The value of a derivation stands where the derivation has it. -/
theorem Derivation.stands_top {source : Slice} {d : Derivation} {back : Bytes}
    (h : source.bytes = d.text ++ back) : d.top.Stands source := by
  refine ⟨d.after.text ++ back, ?_⟩
  have hr : source.rest 0 = d.before.text ++ (d.root.text ++ (d.after.text ++ back)) := by
    rw [Slice.rest_zero, h, text]
    simp only [List.append_assoc]
  have hroot := Slice.rest_add_length hr
  rw [Nat.zero_add] at hroot
  exact hroot

/-- **Every text follows the literal it was read from.**  A document that is read has a derivation,
and wherever in the value a path leads to a string, the string was read from the literal that is
written at the end of the path; where it leads to an object, every key the object keeps was read
from the first of the members that are written there with this key.  The text is a view of the
document between the literal's quotes when there is no backslash in the literal, and a copy of what
the literal stands for when there is one. -/
theorem texts_follow_their_literals {source : Slice} {options : ReadOptions} {v : Value}
    (h : parse source options = ⟨v, none⟩) :
    ∃ (d : Derivation) (back : Bytes), source.bytes = d.text ++ back ∧ v.Follows source d.top := by
  obtain ⟨d, back, hbytes, -, -, -, -, rfl⟩ := parse_eq_ok_iff.mp h
  exact ⟨d, back, hbytes, Site.follows (d.stands_top hbytes)⟩

/-- The document `\x7b"a":"b","\u0061":"\t"\x7d`: a key is written plain and comes again in another
spelling. -/
def respelledKey : Slice :=
  .ofBytes 0 (Bytes.ofString "\x7b\"a\":\"b\",\"\\u0061\":\"\\t\"\x7d")

theorem texts_follow_their_literals_respelledKey :
    ∃ (d : Derivation) (back : Bytes), respelledKey.bytes = d.text ++ back ∧
      (Value.object [(.borrow [0x61], .string (.own [0x09]))]).Follows respelledKey d.top :=
  have h : parse respelledKey {} =
      ⟨.object [(.borrow [0x61], .string (.own [0x09]))], none⟩ := rfl
  texts_follow_their_literals h

end JsonTree
