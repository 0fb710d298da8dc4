import JsonTree.Proofs.Appending
import JsonTree.Proofs.FloatTexts
import JsonTree.Proofs.Origin
import JsonTree.Proofs.Rereading

/-!
# Numbers that are not finite — no other value is refused, and a word stands for each

Where a value stands inside another is said by the context around it: the items or members before
and behind it, in each array and object from the outside in.  A context is written alike whatever
scalar is put into its hole, so what stands for the scalar in the text is told apart from what is
around it.

* `inside_iff_fill`: the values inside a value are those that stand in a context of it.
* `exists_surroundings`: the same bytes are written around whatever stands in the hole.
* `follow?_fill`, `Twin.follow?`: the path to the hole leads to what stands in it, and in a twin to
  its twin.
* `write_eq_error_iff`: when writing fails, in either layout.
* `nonFinite_alone_stops_writing`: this, and how the words that are written otherwise are read back.
-/

namespace JsonTree

open Ascii Bytes

/-- The numbers are the same, or neither is one.  Numbers that are not finite are so exactly when
they are the same infinity or both no number. -/
def Binary64.SameKind (x y : Binary64) : Prop :=
  x = y ∨ x.isNaN = true ∧ y.isNaN = true

namespace Value

/-! ### Contexts -/

/-- What is around one place inside a value. -/
inductive Context where
  | hole
  | item (before : List Value) (inner : Context) (after : List Value)
  | member (before : Members) (key : Text) (inner : Context) (after : Members)

namespace Context

/-- The value with something put into the hole. -/
def fill : Context → Value → Value
  | hole, u => u
  | item before inner after, u => .array (before ++ inner.fill u :: after)
  | member before key inner after, u => .object (before ++ (key, inner.fill u) :: after)

/-- The path that leads to the hole. -/
def path : Context → List PathStep
  | hole => []
  | item before inner _ => .item before.length :: inner.path
  | member _ key inner _ => .key key.bytes :: inner.path

/-- Whatever scalar is put into the hole, its text is written between the given bytes. -/
def Surrounded (c : Context) (options : WriteOptions) (front back : Bytes) : Prop :=
  ∀ u bs, u.IsScalar → u.write options = .ok bs →
    (c.fill u).write options = .ok (front ++ (bs ++ back))

end Context

theorem inside_fill (u : Value) (c : Context) : Inside u (c.fill u) := by
  induction c with
  | hole => exact .here
  | item before inner after ih => exact .item List.mem_append_cons_self ih
  | member before key inner after ih =>
      exact .member (m := (key, inner.fill u)) List.mem_append_cons_self ih

/-- **The values inside a value are those that stand in a context of it.** -/
theorem inside_iff_fill {u v : Value} : Inside u v ↔ ∃ c : Context, c.fill u = v := by
  constructor
  · intro h
    induction h with
    | here => exact ⟨.hole, rfl⟩
    | item hv _ ih =>
        obtain ⟨before, after, rfl⟩ := List.append_of_mem hv
        obtain ⟨c, rfl⟩ := ih
        exact ⟨.item before c after, rfl⟩
    | @member m members hm _ ih =>
        obtain ⟨before, after, rfl⟩ := List.append_of_mem hm
        obtain ⟨c, hc⟩ := ih
        refine ⟨.member before m.1 c after, ?_⟩
        rw [Context.fill, hc]
  · rintro ⟨c, rfl⟩
    exact inside_fill u c

/-- The path to the hole leads to what stands in it. -/
theorem follow?_fill {u : Value} (c : Context) (h : (c.fill u).Everywhere Keyed) :
    (c.fill u).follow? c.path = some u := by
  induction c with
  | hole => rfl
  | item before inner after ih =>
      have hinner := (everywhere_array.mp h).2 (inner.fill u) List.mem_append_cons_self
      rw [Context.path, follow?, Context.fill, child?, List.getElem?_append_right (Nat.le_refl _),
        Nat.sub_self]
      exact ih hinner
  | member before key inner after ih =>
      obtain ⟨hdistinct, hmembers⟩ := everywhere_object.mp h
      have hinner := hmembers (key, inner.fill u) List.mem_append_cons_self
      have hfind : Members.find? (before ++ (key, inner.fill u) :: after) key.bytes =
          some (inner.fill u) :=
        Members.find?_of_mem hdistinct (m := (key, inner.fill u)) List.mem_append_cons_self
      rw [Context.path, follow?, Context.fill, child?, hfind]
      exact ih hinner

/-! ### Around the hole -/

variable {layout : Layout}

theorem renderItems_append (indent : Nat) (vs ws : List Value) :
    renderItems layout indent (vs ++ ws) =
      renderItems layout indent vs ++ renderItems layout indent ws := by
  rw [renderItems_eq, renderItems_eq, renderItems_eq, List.flatMap_append]

theorem renderMembers_append (indent : Nat) (ms ns : Members) :
    renderMembers layout indent (ms ++ ns) =
      renderMembers layout indent ms ++ renderMembers layout indent ns := by
  rw [renderMembers_eq, renderMembers_eq, renderMembers_eq, List.flatMap_append]

/-- The same bytes are written around whatever stands among items. -/
theorem exists_around_item (layout : Layout) (indent : Nat) (before after : List Value) :
    ∃ front back, ∀ u, (array (before ++ u :: after)).render layout indent =
      front ++ (u.render layout (layout.inner indent) ++ back) := by
  cases before with
  | nil =>
      exact ⟨openBracket :: (layout.line (layout.inner indent)).text,
        renderItems layout (layout.inner indent) after ++
          ((layout.line indent).text ++ [closeBracket]),
        fun u => by simp [render]⟩
  | cons v vs =>
      exact ⟨openBracket :: ((layout.line (layout.inner indent)).text ++
          (v.render layout (layout.inner indent) ++
            (renderItems layout (layout.inner indent) vs ++
              comma :: (layout.line (layout.inner indent)).text))),
        renderItems layout (layout.inner indent) after ++
          ((layout.line indent).text ++ [closeBracket]),
        fun u => by simp [render, renderItems_append, renderItems]⟩

/-- The same bytes are written around whatever stands among members, under the same key. -/
theorem exists_around_member (layout : Layout) (indent : Nat) (before : Members) (key : Text)
    (after : Members) : ∃ front back, ∀ u,
      (object (before ++ (key, u) :: after)).render layout indent =
        front ++ (u.render layout (layout.inner indent) ++ back) := by
  cases before with
  | nil =>
      exact ⟨openBrace :: ((layout.line (layout.inner indent)).text ++
          (Write.quoted key.bytes ++ colon :: layout.gap.text)),
        renderMembers layout (layout.inner indent) after ++
          ((layout.line indent).text ++ [closeBrace]),
        fun u => by simp [render]⟩
  | cons m ms =>
      exact ⟨openBrace :: ((layout.line (layout.inner indent)).text ++
          (renderMember layout (layout.inner indent) m ++
            (renderMembers layout (layout.inner indent) ms ++
              comma :: ((layout.line (layout.inner indent)).text ++
                (Write.quoted key.bytes ++ colon :: layout.gap.text))))),
        renderMembers layout (layout.inner indent) after ++
          ((layout.line indent).text ++ [closeBrace]),
        fun u => by simp [render_object_cons, renderMembers_append, renderMembers]⟩

/-- **The same bytes are written around whatever stands in the hole.** -/
theorem exists_surroundings (layout : Layout) (c : Context) : ∀ indent, ∃ front back inner,
    ∀ u : Value, (c.fill u).render layout indent = front ++ (u.render layout inner ++ back) := by
  -- what is around the hole further inside comes between what is around it here
  induction c with
  | hole => exact fun indent => ⟨[], [], indent, fun u => by simp [Context.fill]⟩
  | item before inner after ih =>
      intro indent
      obtain ⟨front, back, h⟩ := exists_around_item layout indent before after
      obtain ⟨front', back', i, h'⟩ := ih (layout.inner indent)
      refine ⟨front ++ front', back' ++ back, i, fun u => ?_⟩
      rw [Context.fill, h, h']
      simp
  | member before key inner after ih =>
      intro indent
      obtain ⟨front, back, h⟩ := exists_around_member layout indent before key after
      obtain ⟨front', back', i, h'⟩ := ih (layout.inner indent)
      refine ⟨front ++ front', back' ++ back, i, fun u => ?_⟩
      rw [Context.fill, h, h']
      simp

/-- A scalar is written on its line, wherever that begins. -/
theorem render_of_isScalar {u : Value} (hu : u.IsScalar) (indent indent' : Nat) :
    u.render layout indent = u.render layout indent' := by
  cases u with
  | array _ | object _ => exact hu.elim
  | _ => simp only [render]

theorem everywhere_allowed (v : Value) : v.Everywhere (Allowed true) := by
  intro u _
  cases u with
  | floating x => exact .inr rfl
  | _ => trivial

/-! ### The same place in a twin -/

theorem TwinItems.getElem? {vs : List Value} {u : Value} : ∀ {ws : List Value} {i : Nat},
    TwinItems vs ws → vs[i]? = some u → ∃ u', ws[i]? = some u' ∧ u.Twin u' := by
  induction vs with
  | nil => exact fun _ hu => nomatch hu
  | cons v vs ih =>
      intro ws i h hu
      obtain ⟨w, ws, rfl, hv, hvs⟩ := h.cons_inv
      cases i with
      | zero =>
          cases hu
          exact ⟨w, rfl, hv⟩
      | succ i =>
          obtain ⟨u', hu', htwin⟩ := ih hvs hu
          exact ⟨u', hu', htwin⟩

theorem TwinMembers.find? {ms : Members} {key : Bytes} {u : Value} : ∀ {ns : Members},
    TwinMembers ms ns → ms.find? key = some u → ∃ u', ns.find? key = some u' ∧ u.Twin u' := by
  induction ms with
  | nil => exact fun _ hu => nomatch hu
  | cons m ms ih =>
      intro ns h hu
      obtain ⟨n, ns, rfl, hkey, hm, hms⟩ := h.cons_inv
      rw [Members.find?_cons] at hu
      rw [Members.find?_cons, ← hkey]
      by_cases hk : m.1.bytes = key
      · rw [if_pos hk] at hu
        cases hu
        exact ⟨n.2, if_pos hk, hm⟩
      · rw [if_neg hk] at hu
        obtain ⟨u', hu', htwin⟩ := ih hms hu
        exact ⟨u', (if_neg hk).trans hu', htwin⟩

theorem Twin.child? {v w u : Value} {step : PathStep} (h : v.Twin w) (hu : v.child? step = some u) :
    ∃ u', w.child? step = some u' ∧ u.Twin u' := by
  cases step with
  | item i =>
      cases v with
      | array vs =>
          obtain ⟨ws, rfl, hws⟩ := h.array_inv
          exact hws.getElem? hu
      | _ => cases hu
  | key key =>
      cases v with
      | object ms =>
          obtain ⟨ns, rfl, hns⟩ := h.object_inv
          exact hns.find? hu
      | _ => cases hu

/-- **A path leads to twins in twins.** -/
theorem Twin.follow? {u : Value} {path : List PathStep} : ∀ {v w : Value}, v.Twin w →
    v.follow? path = some u → ∃ u', w.follow? path = some u' ∧ u.Twin u' := by
  induction path with
  | nil =>
      rintro v w h hu
      cases hu
      exact ⟨w, rfl, h⟩
  | cons step path ih =>
      intro v w h hu
      obtain ⟨v', hv', hu⟩ := Option.bind_eq_some_iff.mp hu
      obtain ⟨w', hw', h'⟩ := h.child? hv'
      obtain ⟨u', hu', htwin⟩ := ih h' hu
      exact ⟨u', Option.bind_eq_some_iff.mpr ⟨w', hw', hu'⟩, htwin⟩

/-! ### Refused or written by a word -/

/-- **When writing fails.** -/
theorem write_eq_error_iff {v : Value} {allow : Bool} :
    v.write ⟨layout, allow⟩ = .error .nonFinite ↔
      allow = false ∧ ∃ x, Inside (.floating x) v ∧ x.isFinite = false := by
  rw [← not_everywhere_allowed_iff, WriteError.eq_nonFinite_iff]
  simp only [ne_eq, write_eq_ok_iff, not_and, forall_eq_apply_imp_iff]

/-- A number that is not finite is written only where this is allowed. -/
theorem allow_of_write {c : Context} {x : Binary64} {options : WriteOptions} {text : Bytes}
    (hx : x.isFinite = false) (h : (c.fill (.floating x)).write options = .ok text) :
    options.allowNonFinite = true :=
  ((write_eq_ok_iff.mp h).1 _ (inside_fill _ c)).resolve_left (by simp [hx])

/-- **A scalar in the hole is written between the same bytes as any other**, where all numbers are
allowed. -/
theorem exists_surrounded (c : Context) {options : WriteOptions}
    (hallow : options.allowNonFinite = true) : ∃ front back, c.Surrounded options front back := by
  obtain ⟨front, back, i, h⟩ := exists_surroundings options.layout c 0
  refine ⟨front, back, fun u bs hu hwrite => ?_⟩
  obtain ⟨-, rfl⟩ := write_eq_ok_iff.mp hwrite
  refine write_eq_ok_iff.mpr ⟨hallow ▸ everywhere_allowed _, ?_⟩
  rw [h, render_of_isScalar hu 0 i]

end Value

/-! ### Reading the words -/

open Value Reader

/-- A reader that is allowed to takes the word for a number of the same kind, be it a whole
document or stand behind blanks in front of anything. -/
def NonFinite.ReadAs (word : NonFinite) (x : Binary64) : Prop :=
  (∀ (source : Slice) (reading : ReadOptions), reading.allowNonFinite = true →
    source.bytes = word.text → ∃ y, parse source reading = ⟨.floating y, none⟩ ∧ x.SameKind y) ∧
  ∀ (w : Blanks) (s : Session Reader) (back : Bytes), s.state.options.allowNonFinite = true →
    rest s = w.text ++ (word.text ++ back) →
    ∃ y, readFloat s = (y, skip s (w.text.length + word.text.length)) ∧ x.SameKind y

/-- Reading the text of the value with the number in the hole: it is accepted if its texts are well
formed and it is not nested too deep, and once it is, the path to the hole leads to a number of the
same kind. -/
def Value.Context.Reread (c : Context) (x : Binary64) (text : Bytes) : Prop :=
  ∀ (source : Slice) (reading : ReadOptions), reading.allowNonFinite = true → source.bytes = text →
    ((c.fill (.floating x)).Everywhere Encoded → (c.fill (.floating x)).depth ≤ reading.maxDepth →
      ∃ w, parse source reading = ⟨w, none⟩) ∧
    ∀ w, parse source reading = ⟨w, none⟩ →
      ∃ y, w.follow? c.path = some (.floating y) ∧ x.SameKind y

/-- **The word for a number is read as one of its kind.** -/
theorem NonFinite.readAs {word : NonFinite} {x : Binary64}
    (htext : word.text = Write.floatingText x) (hkind : x.SameKind word.number) :
    word.ReadAs x := by
  refine ⟨fun source reading hallow hsource => ?_, fun w s back hallow hr =>
    ⟨word.number, readFloat_of_word hallow hr, hkind⟩⟩
  have hfit : (Value.floating x).Everywhere (Fit reading.allowNonFinite) :=
    everywhere_floating.mpr ⟨trivial, trivial, .inr hallow⟩
  have hrender : source.bytes = (Value.floating x).render .compact 0 := hsource.trans htext
  obtain ⟨w, hparse, htwin⟩ := parse_render hfit (Nat.zero_le _) hrender
  obtain ⟨y, rfl, hkind⟩ := htwin.floating_inv
  exact ⟨y, hparse, hkind⟩

/-- **A number is read again, as one of its kind, where it has been written.** -/
theorem reread_of_write {c : Context} {x : Binary64} {options : WriteOptions} {text : Bytes}
    (hkeyed : (c.fill (.floating x)).Everywhere Keyed)
    (hwrite : (c.fill (.floating x)).write options = .ok text) : c.Reread x text := by
  rintro source reading hallow rfl
  obtain ⟨-, hsource⟩ := write_eq_ok_iff.mp hwrite
  constructor
  · intro hencoded hdepth
    have hfit : (c.fill (.floating x)).Everywhere (Fit reading.allowNonFinite) := fun u hu =>
      ⟨hencoded u hu, hkeyed u hu, hallow ▸ everywhere_allowed _ u hu⟩
    obtain ⟨w, hparse, -⟩ := parse_render hfit hdepth hsource
    exact ⟨w, hparse⟩
  · intro w hparse
    -- what is accepted was fit to be written, so it is a twin of what has been written
    obtain ⟨hfit, hdepth, -⟩ := texts_of_parse hkeyed hsource hparse
    obtain ⟨w', hparse', htwin⟩ := parse_render hfit hdepth hsource
    obtain rfl : w = w' := congrArg Parsed.value (hparse.symm.trans hparse')
    obtain ⟨u, hu, htwin⟩ := htwin.follow? (follow?_fill c hkeyed)
    obtain ⟨y, rfl, hkind⟩ := htwin.floating_inv
    exact ⟨y, hu, hkind⟩

/-- **Only numbers that are not finite stop a writer.**  Writing fails, in either layout, exactly
when such numbers are not allowed and the value holds one at any depth; so the layouts agree.  What
a value holds is what stands in one of its contexts.  If writing does not fail, a word stands in the
text for each such number, between the bytes that are written around whatever scalar is there, and
it is read as a number of the same kind: by itself, where it stands, and with the whole text at the
end of the same path. -/
theorem nonFinite_alone_stops_writing :
    (∀ (v : Value) (allow : Bool) (layout : Layout), v.write ⟨layout, allow⟩ = .error .nonFinite ↔
        allow = false ∧ ∃ x, Inside (.floating x) v ∧ x.isFinite = false) ∧
      (∀ (v : Value) (allow : Bool), v.write ⟨.compact, allow⟩ = .error .nonFinite ↔
        v.write ⟨.pretty, allow⟩ = .error .nonFinite) ∧
      (∀ u v : Value, Inside u v ↔ ∃ c : Context, c.fill u = v) ∧
      ∀ (c : Context) (x : Binary64) (options : WriteOptions) (text : Bytes), x.isFinite = false →
        (c.fill (.floating x)).write options = .ok text →
        ∃ (word : NonFinite) (front back : Bytes), text = front ++ (word.text ++ back) ∧
          c.Surrounded options front back ∧ x.SameKind word.number ∧ word.ReadAs x ∧
          (Built (c.fill (.floating x)) → c.Reread x text) := by
  refine ⟨fun v allow layout => write_eq_error_iff, fun v allow => ?_, fun u v => inside_iff_fill,
    fun c x options text hx h => ?_⟩
  · exact write_eq_error_iff.trans write_eq_error_iff.symm
  · have hallow := allow_of_write hx h
    obtain ⟨word, htext, hkind⟩ := Write.exists_word hx
    obtain ⟨front, back, hsurrounded⟩ := exists_surrounded c hallow
    have hword : (Value.floating x).write options = .ok word.text :=
      write_eq_ok_iff.mpr ⟨everywhere_floating.mpr (.inr hallow), htext⟩
    have hwrite := hsurrounded (.floating x) word.text trivial hword
    exact ⟨word, front, back, Except.ok.inj (h.symm.trans hwrite), hsurrounded, hkind,
      NonFinite.readAs htext hkind, fun hbuilt => reread_of_write (built_iff.mp hbuilt) h⟩

/-- Under a key, what stands behind a one in an array. -/
def behindOne : Context :=
  .member [] (.own [0x61]) (.item [.integer 1] .hole []) []

theorem nonFinite_alone_stops_writing_behindOne :
    (behindOne.fill (.floating Binary64.negativeInfinity)).write ⟨.compact, false⟩ =
        .error .nonFinite ∧
      ∃ (word : NonFinite) (front back : Bytes),
        Bytes.ofString "\x7b\n  \"a\": [\n    1,\n    -Infinity\n  ]\n\x7d" =
            front ++ (word.text ++ back) ∧
          behindOne.Surrounded ⟨.pretty, true⟩ front back ∧
          Binary64.negativeInfinity.SameKind word.number ∧
          word.ReadAs Binary64.negativeInfinity ∧
          behindOne.Reread Binary64.negativeInfinity
            (Bytes.ofString "\x7b\n  \"a\": [\n    1,\n    -Infinity\n  ]\n\x7d") := by
  obtain ⟨hfails, -, -, hwords⟩ := nonFinite_alone_stops_writing
  refine ⟨(hfails _ _ _).mpr ⟨rfl, _, inside_fill _ _, by decide⟩, ?_⟩
  have hwrite : (behindOne.fill (.floating Binary64.negativeInfinity)).write ⟨.pretty, true⟩ =
      .ok (Bytes.ofString "\x7b\n  \"a\": [\n    1,\n    -Infinity\n  ]\n\x7d") :=
    write_eq_ok_iff.mpr ⟨everywhere_allowed _, by decide⟩
  obtain ⟨word, front, back, htext, hsurrounded, hkind, hread, hreread⟩ :=
    hwords behindOne Binary64.negativeInfinity ⟨.pretty, true⟩ _ (by decide) hwrite
  refine ⟨word, front, back, htext, hsurrounded, hkind, hread, hreread (built_iff.mpr ?_)⟩
  simp [behindOne, Context.fill, Keyed, Members.Distinct, Members.keys]

end JsonTree
