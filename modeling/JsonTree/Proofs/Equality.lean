import JsonTree.Proofs.Association
import JsonTree.Proofs.Built
import JsonTree.Proofs.Rounding

/-!
# Equality — equal values are those of equal content

The content of a value is what is left when it is forgotten where bytes are kept and in which order
the members of an object stand: a floating point number is the quantity it stands for, a string its
bytes, an array the list of its items' contents, and an object a function that gives each key a
content or none.  Equality of values compares sizes and looks up the keys of one side only, but for
values with distinct keys it is equality of content, except that what holds no number somewhere is
equal to nothing.

* `sameNumber_iff`: floating point numbers are the same when they stand for the same quantity.
* `equal_iff`: values are equal exactly when their contents are and there is no not-a-number.
* `Rearranged.keeps`: other flags and another order of members leave the content as it is.
* `equality_is_of_content`: what equality of values that can be built is.
-/

namespace JsonTree

/-! ### Floating point numbers -/

/-- What a floating point number stands for. -/
inductive Quantity where
  | number (q : ℚ)
  | infinite (negative : Bool)
  /-- No number. -/
  | nothing

namespace Binary64

/-- The quantity that is meant; the two zeros are one. -/
noncomputable def quantity (x : Binary64) : Quantity :=
  if x.isNaN then .nothing
  else if x.magnitude = infinite then .infinite x.negative
  else .number (if x.negative then -size x.magnitude else size x.magnitude)

/-- Only what is no number has no quantity. -/
theorem quantity_eq_nothing_iff {x : Binary64} : x.quantity = .nothing ↔ x.isNaN = true := by
  rw [quantity]
  split
  · next hx => simp [hx]
  · next hx => split <;> simp [hx]

theorem isNaN_of_quantity {x y : Binary64} (h : x.quantity = y.quantity) (hx : x.isNaN = false) :
    y.isNaN = false := by
  rw [← Bool.not_eq_true] at hx ⊢
  rwa [← quantity_eq_nothing_iff, ← h, quantity_eq_nothing_iff]

theorem size_zero : size 0 = 0 := by
  simp [size, units_zero]

/-- A float is known by its sign and its magnitude. -/
theorem eq_of_parts {x y : Binary64} (hs : x.negative = y.negative)
    (hm : x.magnitude = y.magnitude) : x = y := by
  rw [← ofMagnitude_self x, ← ofMagnitude_self y, hs, hm]

/-- Magnitudes with signs mean the same number only if they are the same, or both zero. -/
theorem eq_of_signed_size {s t : Bool} {m n : Nat}
    (h : (if s then -size m else size m) = if t then -size n else size n) :
    s = t ∧ m = n ∨ m = 0 ∧ n = 0 := by
  have nonneg : ∀ k, 0 ≤ size k := fun k => size_zero ▸ size_strictMono.monotone (Nat.zero_le k)
  have zero : ∀ k, size k = 0 → k = 0 := fun k hk =>
    size_strictMono.injective (hk.trans size_zero.symm)
  have hm := nonneg m
  have hn := nonneg n
  cases s <;> cases t <;> simp only [Bool.false_eq_true, ↓reduceIte] at h
  · exact .inl ⟨rfl, size_strictMono.injective h⟩
  · exact .inr ⟨zero m (by linarith), zero n (by linarith)⟩
  · exact .inr ⟨zero m (by linarith), zero n (by linarith)⟩
  · exact .inl ⟨rfl, size_strictMono.injective (neg_inj.mp h)⟩

/-- **Numbers are the same when they stand for the same quantity.** -/
theorem sameNumber_iff {x y : Binary64} :
    x.sameNumber y = true ↔ x.quantity = y.quantity ∧ x.isNaN = false := by
  have finite_of_zero : ∀ {z : Binary64}, z.magnitude = 0 → z.magnitude ≠ infinite := by
    intro z hz
    rw [hz]
    decide
  simp only [sameNumber, Bool.and_eq_true, Bool.not_eq_true', Bool.or_eq_true, beq_iff_eq]
  constructor
  · rintro ⟨⟨hx, hy⟩, rfl | ⟨hmx, hmy⟩⟩
    · exact ⟨rfl, hx⟩
    · refine ⟨?_, hx⟩
      rw [quantity, quantity, hx, hy, if_neg (finite_of_zero hmx), if_neg (finite_of_zero hmy), hmx,
        hmy, size_zero, neg_zero, ite_self, ite_self]
  · rintro ⟨h, hx⟩
    have hy := isNaN_of_quantity h hx
    refine ⟨⟨hx, hy⟩, ?_⟩
    rw [quantity, quantity, hx, hy, if_neg Bool.false_ne_true, if_neg Bool.false_ne_true] at h
    by_cases hmx : x.magnitude = infinite
    · rw [if_pos hmx] at h
      by_cases hmy : y.magnitude = infinite
      · rw [if_pos hmy] at h
        exact .inl (eq_of_parts (Quantity.infinite.inj h) (hmx.trans hmy.symm))
      · rw [if_neg hmy] at h
        cases h
    · rw [if_neg hmx] at h
      by_cases hmy : y.magnitude = infinite
      · rw [if_pos hmy] at h
        cases h
      · rw [if_neg hmy] at h
        rcases eq_of_signed_size (Quantity.number.inj h) with ⟨hs, hm⟩ | hzero
        · exact .inl (eq_of_parts hs hm)
        · exact .inr hzero

end Binary64

/-! ### Content -/

/-- The content of a value. -/
inductive Content where
  | null
  | boolean (b : Bool)
  | integer (n : Int64)
  | floating (q : Quantity)
  | string (bytes : Bytes)
  | array (items : List Content)
  /-- The content under each key, where there is one. -/
  | object (under : Bytes → Option Content)

namespace Value

mutual

/-- The content of a value. -/
noncomputable def content : Value → Content
  | null => .null
  | boolean b => .boolean b
  | integer n => .integer n
  | floating x => .floating x.quantity
  | string t => .string t.bytes
  | array items => .array (contents items)
  | object members => .object fun key => contentUnder members key

/-- The contents of the items. -/
noncomputable def contents : List Value → List Content
  | [] => []
  | v :: vs => content v :: contents vs

/-- The content under a key. -/
noncomputable def contentUnder : Members → Bytes → Option Content
  | [], _ => none
  | (k, v) :: ms, key => if k.bytes = key then some (content v) else contentUnder ms key

end

theorem contents_eq (items : List Value) : contents items = items.map content := by
  induction items with
  | nil => rfl
  | cons v vs ih => rw [contents, ih, List.map_cons]

/-- The content under a key is that of the member found there. -/
theorem contentUnder_eq (members : Members) (key : Bytes) :
    contentUnder members key = (members.find? key).map content := by
  induction members with
  | nil => rfl
  | cons m ms ih =>
      rw [contentUnder, ih, Members.find?_cons]
      split <;> rfl

/-- Content tells the kind. -/
theorem kind_eq_of_content {a b : Value} (h : a.content = b.content) : a.kind = b.kind := by
  cases a <;> cases b <;> first | rfl | cases h

/-! ### Equality -/

/-- Items are equal when their contents are and no NaN is among them. -/
theorem equalItems_iff {as : List Value}
    (ih : ∀ a ∈ as, ∀ b : Value, b.Everywhere Keyed →
      (a.equal b = true ↔ a.content = b.content ∧ a.Everywhere Numeric)) :
    ∀ {bs : List Value}, (∀ b ∈ bs, b.Everywhere Keyed) →
      (equalItems as bs = true ↔ as.map content = bs.map content ∧
        ∀ a ∈ as, a.Everywhere Numeric) := by
  induction as with
  | nil =>
      intro bs _
      cases bs <;> simp [equalItems]
  | cons a as ihItems =>
      intro bs hbs
      cases bs with
      | nil => simp [equalItems]
      | cons b bs =>
          rw [equalItems, Bool.and_eq_true, ih a List.mem_cons_self b (hbs b List.mem_cons_self),
            ihItems (fun u hu => ih u (List.mem_cons_of_mem _ hu))
              fun u hu => hbs u (List.mem_cons_of_mem _ hu),
            List.map_cons, List.map_cons, List.cons.injEq, List.forall_mem_cons]
          tauto

/-- What is found under a key is the value of a member. -/
theorem mem_of_find? {members : Members} {key : Bytes} {v : Value}
    (h : members.find? key = some v) : ∃ m ∈ members, m.1.bytes = key ∧ m.2 = v := by
  obtain ⟨m, hm, rfl⟩ := Option.map_eq_some_iff.mp h
  have hkey : Member.hasKey key m = true := List.find?_some hm
  exact ⟨m, List.mem_of_find?_eq_some hm, beq_iff_eq.mp hkey, rfl⟩

/-- Every member is found among the others exactly when the others have its content under its
key. -/
theorem equalMembers_iff {others : Members} (hothers : ∀ m ∈ others, m.2.Everywhere Keyed)
    {ms : Members} (ih : ∀ m ∈ ms, ∀ b : Value, b.Everywhere Keyed →
      (m.2.equal b = true ↔ m.2.content = b.content ∧ m.2.Everywhere Numeric)) :
    equalMembers ms others = true ↔ ∀ m ∈ ms, (others.find? m.1.bytes).map content =
      some m.2.content ∧ m.2.Everywhere Numeric := by
  induction ms with
  | nil => simp [equalMembers]
  | cons m ms ihMembers =>
      rw [equalMembers, Bool.and_eq_true, List.forall_mem_cons,
        ihMembers fun u hu => ih u (List.mem_cons_of_mem _ hu)]
      refine and_congr_left fun _ => ?_
      cases hfind : others.find? m.1.bytes with
      | none => simp
      | some b =>
          obtain ⟨n, hn, -, rfl⟩ := mem_of_find? hfind
          rw [Option.map_some, Option.some.injEq]
          exact (ih m List.mem_cons_self n.2 (hothers n hn)).trans (and_congr_left' eq_comm)

/-- Where keys are distinct, as many members on both sides and every left one found on the right
make the same function, and the same function has as many members on both sides. -/
theorem sameFunction_iff {ms ns : Members} (hms : ms.Distinct) (hns : ns.Distinct) :
    (ms.length = ns.length ∧
      ∀ m ∈ ms, (ns.find? m.1.bytes).map content = some m.2.content) ↔
      ∀ key, (ms.find? key).map content = (ns.find? key).map content := by
  have mem_keys : ∀ {xs : Members} {key : Bytes}, key ∈ xs.keys ↔ ∃ v, xs.find? key = some v := by
    intro xs key
    constructor
    · intro h
      obtain ⟨m, hm, rfl⟩ := List.mem_map.mp h
      exact Option.isSome_iff_exists.mp (by
        rw [Members.find?, Option.isSome_map, List.find?_isSome]
        exact ⟨m, hm, beq_self_eq_true _⟩)
    · rintro ⟨v, hv⟩
      obtain ⟨m, hm, rfl, -⟩ := mem_of_find? hv
      exact List.mem_map_of_mem hm
  have length_keys : ∀ xs : Members, xs.keys.length = xs.length := fun xs => List.length_map _
  constructor
  · rintro ⟨hlen, hfound⟩ key
    have hsub : ms.keys ⊆ ns.keys := by
      intro k hk
      obtain ⟨m, hm, rfl⟩ := List.mem_map.mp hk
      obtain ⟨v, hv, -⟩ := Option.map_eq_some_iff.mp (hfound m hm)
      exact mem_keys.mpr ⟨v, hv⟩
    -- as many keys, so no key is on the right only
    have hperm : ms.keys.Perm ns.keys :=
      (hms.subperm hsub).perm_of_length_le (by rw [length_keys, length_keys, hlen])
    cases hm : ms.find? key with
    | some v =>
        obtain ⟨m, hmem, rfl, rfl⟩ := mem_of_find? hm
        rw [hfound m hmem]
        rfl
    | none =>
        cases hn : ns.find? key with
        | none => rfl
        | some w =>
            obtain ⟨v, hv⟩ := mem_keys.mp (hperm.symm.subset (mem_keys.mpr ⟨w, hn⟩))
            rw [hm] at hv
            cases hv
  · intro h
    have hsame : ∀ key, key ∈ ms.keys ↔ key ∈ ns.keys := by
      intro key
      have hkey := congrArg Option.isSome (h key)
      rw [Option.isSome_map, Option.isSome_map] at hkey
      rw [mem_keys, mem_keys, ← Option.isSome_iff_exists, ← Option.isSome_iff_exists, hkey]
    refine ⟨?_, fun m hm => ?_⟩
    · rw [← length_keys ms, ← length_keys ns]
      exact ((List.perm_ext_iff_of_nodup hms hns).mpr hsame).length_eq
    · rw [← h, Members.find?_of_mem hms hm]
      rfl

/-- **Values are equal exactly when their contents are, and there is no not-a-number.** -/
theorem equal_iff {a : Value} : ∀ {b : Value}, a.Everywhere Keyed → b.Everywhere Keyed →
    (a.equal b = true ↔ a.content = b.content ∧ a.Everywhere Numeric) := by
  induction a with
  | null =>
      intro b _ _
      cases b <;> simp [equal, content, Numeric]
  | boolean x =>
      intro b _ _
      cases b <;> simp [equal, content, Numeric]
  | integer n =>
      intro b _ _
      cases b <;> simp [equal, content, Numeric]
  | floating x =>
      intro b _ _
      cases b <;> simp [equal, content, Numeric, Binary64.sameNumber_iff]
  | string t =>
      intro b _ _
      cases b <;> simp [equal, content, Numeric, Text.sameBytes]
  | array as ih =>
      intro b ha hb
      cases b with
      | array bs =>
          obtain ⟨-, has⟩ := everywhere_array.mp ha
          obtain ⟨-, hbs⟩ := everywhere_array.mp hb
          rw [equal, equalItems_iff (fun a hmem b hb => ih a hmem (has a hmem) hb) hbs, content,
            content, Content.array.injEq, contents_eq, contents_eq, everywhere_array]
          simp [Numeric]
      | _ => simp [equal, content]
  | object ms ih =>
      intro b ha hb
      cases b with
      | object ns =>
          obtain ⟨hms, hvalues⟩ := everywhere_object.mp ha
          obtain ⟨hns, hothers⟩ := everywhere_object.mp hb
          rw [equal, Bool.and_eq_true, beq_iff_eq,
            equalMembers_iff hothers fun m hmem b hb => ih m hmem (hvalues m hmem) hb, content,
            content, Content.object.injEq, funext_iff, everywhere_object]
          simp only [contentUnder_eq]
          -- the members are compared one way only, which is enough as there are as many on either side
          rw [← sameFunction_iff hms hns]
          simp only [Numeric, true_and, and_assoc]
          refine and_congr_right fun _ => ?_
          exact forall₂_and
      | _ => simp [equal, content]

/-- Content tells whether there is a not-a-number. -/
theorem numeric_of_content {a : Value} : ∀ {b : Value}, b.Everywhere Keyed →
    a.content = b.content → a.Everywhere Numeric → b.Everywhere Numeric := by
  induction a with
  | null | boolean _ | integer _ | string _ =>
      intro b _ h _
      cases b <;> first | cases h; done | simp [Numeric]
  | floating x =>
      intro b _ h hx
      cases b with
      | floating y =>
          have hquantity := Content.floating.inj h
          exact everywhere_floating.mpr (Binary64.isNaN_of_quantity hquantity hx.self)
      | _ => cases h
  | array as ih =>
      intro b hb h ha
      cases b with
      | array bs =>
          obtain ⟨-, hbs⟩ := everywhere_array.mp hb
          obtain ⟨-, has⟩ := everywhere_array.mp ha
          rw [content, content, Content.array.injEq, contents_eq, contents_eq] at h
          refine everywhere_array.mpr ⟨trivial, fun b hmem => ?_⟩
          obtain ⟨a, hmem', hcontent⟩ := List.mem_map.mp (h ▸ List.mem_map_of_mem hmem)
          exact ih a hmem' (hbs b hmem) hcontent (has a hmem')
      | _ => cases h
  | object ms ih =>
      intro b hb h ha
      cases b with
      | object ns =>
          obtain ⟨hns, hothers⟩ := everywhere_object.mp hb
          obtain ⟨-, hvalues⟩ := everywhere_object.mp ha
          rw [content, content, Content.object.injEq] at h
          refine everywhere_object.mpr ⟨trivial, fun n hn => ?_⟩
          -- on the left a member of the same key has the same content
          have hunder := congrFun h n.1.bytes
          rw [contentUnder_eq, contentUnder_eq, Members.find?_of_mem hns hn] at hunder
          obtain ⟨v, hv, hcontent⟩ := Option.map_eq_some_iff.mp hunder
          obtain ⟨m, hm, -, rfl⟩ := mem_of_find? hv
          exact ih m hm (hothers n hn) hcontent (hvalues m hm)
      | _ => cases h

/-! ### Flags and order have no say -/

/-- The same value, but for where bytes are kept and for the order of members, at any depth. -/
inductive Rearranged : Value → Value → Prop where
  | refl (v : Value) : Rearranged v v
  | trans {u v w : Value} : Rearranged u v → Rearranged v w → Rearranged u w
  | string {s t : Text} : s.bytes = t.bytes → Rearranged (.string s) (.string t)
  | order {ms ns : Members} : ms.Perm ns → Rearranged (.object ms) (.object ns)
  | item {v w : Value} (before after : List Value) : Rearranged v w →
      Rearranged (.array (before ++ v :: after)) (.array (before ++ w :: after))
  | member {key key' : Text} {v w : Value} (before after : Members) : key.bytes = key'.bytes →
      Rearranged v w →
      Rearranged (.object (before ++ (key, v) :: after)) (.object (before ++ (key', w) :: after))

/-- Among distinct keys the order makes no difference to what is found. -/
theorem find?_of_perm {ms ns : Members} (hms : ms.Distinct) (hns : ns.Distinct) (h : ms.Perm ns)
    (key : Bytes) : (ms.find? key).map content = (ns.find? key).map content := by
  refine (sameFunction_iff hms hns).mp ⟨h.length_eq, fun m hm => ?_⟩ key
  rw [Members.find?_of_mem hns (h.subset hm)]
  rfl

/-- A member at a place, among others. -/
theorem forall_mem_middle {α : Type} {p : α → Prop} {before after : List α} {a : α} :
    (∀ x ∈ before ++ a :: after, p x) ↔ p a ∧ ∀ x ∈ before ++ after, p x := by
  simp only [List.mem_append, List.mem_cons]
  grind

/-- **Rearranging keeps keys distinct, and the content.** -/
theorem Rearranged.keeps {v w : Value} (h : v.Rearranged w) : v.Everywhere Keyed →
    w.Everywhere Keyed ∧ w.content = v.content ∧
      (w.Everywhere Numeric ↔ v.Everywhere Numeric) := by
  induction h with
  | refl v => exact fun hv => ⟨hv, rfl, Iff.rfl⟩
  | trans _ _ ih ih' =>
      intro hu
      obtain ⟨hv, hcontent, hnumeric⟩ := ih hu
      obtain ⟨hw, hcontent', hnumeric'⟩ := ih' hv
      exact ⟨hw, hcontent'.trans hcontent, hnumeric'.trans hnumeric⟩
  | string hst =>
      intro _
      refine ⟨everywhere_string.mpr trivial, ?_, by simp [Numeric]⟩
      rw [content, content, hst]
  | @order ms ns hperm =>
      intro h
      obtain ⟨hms, hvalues⟩ := everywhere_object.mp h
      have hns : ns.Distinct := (hperm.map fun m : Member => m.1.bytes).nodup_iff.mp hms
      refine ⟨everywhere_object.mpr ⟨hns, fun m hm => hvalues m (hperm.symm.subset hm)⟩, ?_, ?_⟩
      · rw [content, content, Content.object.injEq]
        funext key
        rw [contentUnder_eq, contentUnder_eq, find?_of_perm hms hns hperm]
      · simp only [everywhere_object, Numeric, hperm.mem_iff]
  | @item v w before after _ ih =>
      intro h
      obtain ⟨-, hitems⟩ := everywhere_array.mp h
      obtain ⟨hv, hrest⟩ := forall_mem_middle.mp hitems
      obtain ⟨hw, hcontent, hnumeric⟩ := ih hv
      refine ⟨everywhere_array.mpr ⟨trivial, forall_mem_middle.mpr ⟨hw, hrest⟩⟩, ?_, ?_⟩
      · simp only [content, contents_eq, List.map_append, List.map_cons, hcontent]
      · rw [everywhere_array, everywhere_array, forall_mem_middle, forall_mem_middle, hnumeric]
        rfl
  | @member key key' v w before after hkey _ ih =>
      intro h
      obtain ⟨hkeys, hmembers⟩ := everywhere_object.mp h
      obtain ⟨hv, hrest⟩ := forall_mem_middle.mp hmembers
      obtain ⟨hw, hcontent, hnumeric⟩ := ih hv
      refine ⟨everywhere_object.mpr ⟨keyed_replace hkeys hkey,
        forall_mem_middle.mpr ⟨hw, hrest⟩⟩, ?_, ?_⟩
      -- the bytes of the key are kept, so that it leads to the same content, and other keys as before
      · have hfind : ∀ (ms : Members) (k : Bytes), contentUnder (ms ++ (key', w) :: after) k =
            contentUnder (ms ++ (key, v) :: after) k := by
          intro ms k
          induction ms with
          | nil => rw [List.nil_append, List.nil_append, contentUnder, contentUnder, hcontent, hkey]
          | cons m ms ih => rw [List.cons_append, List.cons_append, contentUnder, contentUnder, ih]
        simp only [content, hfind]
      · rw [everywhere_object, everywhere_object, forall_mem_middle, forall_mem_middle, hnumeric]
        rfl

end Value

open Value

/-- **Equality is of content.**  Let values be built by the operations on them.  Two of them are
equal exactly when they are of one kind, have the same content, and hold no not-a-number.  So
equality is symmetric and transitive, and a value is equal to itself exactly when it holds no
not-a-number.  Where bytes are kept and in which order members have been inserted, at any depth,
makes no difference.  Being different is the contrary, of values and of the members of objects. -/
theorem equality_is_of_content {a b c : Value} (ha : Built a) (hb : Built b) (hc : Built c) :
    (a.equal b = true ↔ a.kind = b.kind ∧ a.content = b.content ∧ a.Everywhere Numeric) ∧
      a.equal b = b.equal a ∧
      (a.equal b = true → b.equal c = true → a.equal c = true) ∧
      (a.equal a = true ↔ a.Everywhere Numeric) ∧
      (∀ a' b', a.Rearranged a' → b.Rearranged b' → a'.equal b' = a.equal b) ∧
      a.differ b = !a.equal b ∧
      ∀ ms ns : Members, a = .object ms → b = .object ns →
        ms.equal ns = a.equal b ∧ ms.differ ns = !ms.equal ns := by
  have hka := built_iff.mp ha
  have hkb := built_iff.mp hb
  have hkc := built_iff.mp hc
  refine ⟨?_, ?_, ?_, ?_, ?_, rfl, ?_⟩
  · rw [equal_iff hka hkb]
    exact ⟨fun ⟨h, hn⟩ => ⟨kind_eq_of_content h, h, hn⟩, fun ⟨_, h, hn⟩ => ⟨h, hn⟩⟩
  · rw [Bool.eq_iff_iff, equal_iff hka hkb, equal_iff hkb hka]
    exact ⟨fun ⟨h, hn⟩ => ⟨h.symm, numeric_of_content hkb h hn⟩,
      fun ⟨h, hn⟩ => ⟨h.symm, numeric_of_content hka h hn⟩⟩
  · rw [equal_iff hka hkb, equal_iff hkb hkc, equal_iff hka hkc]
    rintro ⟨h, hn⟩ ⟨h', -⟩
    exact ⟨h.trans h', hn⟩
  · rw [equal_iff hka hka]
    exact and_iff_right rfl
  · intro a' b' haa hbb
    obtain ⟨hka', hcontent, hnumeric⟩ := haa.keeps hka
    obtain ⟨hkb', hcontent', -⟩ := hbb.keeps hkb
    rw [Bool.eq_iff_iff, equal_iff hka' hkb', equal_iff hka hkb, hcontent, hcontent', hnumeric]
  · rintro ms ns rfl rfl
    exact ⟨rfl, rfl⟩

/-- An object with a view for a key, and a zero. -/
def plusZero : Value :=
  .object [(.borrow [0x6B], .floating Binary64.zero), (.own [], .array [.integer 1])]

/-- The same with copies for keys and in another order, and with the other zero. -/
def minusZero : Value :=
  .object [(.own [], .array [.integer 1]), (.own [0x6B], .floating ⟨0x8000000000000000⟩)]

/-- An array with a not-a-number in an array. -/
def nestedNaN : Value :=
  .array [.array [.floating Binary64.nan]]

theorem equality_is_of_content_zeros : Built plusZero ∧ Built minusZero ∧ Built nestedNaN ∧
    plusZero.content = minusZero.content ∧ minusZero.equal plusZero = true ∧
    plusZero.equal plusZero = true ∧ nestedNaN.equal nestedNaN = false := by
  have hplus : Built plusZero := built_iff.mpr (by
    simp [plusZero, Keyed, Members.Distinct, Members.keys, Text.own, Text.borrow])
  have hminus : Built minusZero := built_iff.mpr (by
    simp [minusZero, Keyed, Members.Distinct, Members.keys, Text.own])
  have hnan : Built nestedNaN := built_iff.mpr (by simp [nestedNaN, Keyed])
  have hequal : plusZero.equal minusZero = true := by decide
  obtain ⟨hcontent, hsymm, -, hself, -⟩ := equality_is_of_content hplus hminus hnan
  obtain ⟨-, -, -, hnself, -⟩ := equality_is_of_content hnan hplus hminus
  obtain ⟨-, hsame, hnumeric⟩ := hcontent.mp hequal
  refine ⟨hplus, hminus, hnan, hsame, hsymm ▸ hequal, hself.mpr hnumeric, ?_⟩
  rw [← Bool.not_eq_true, hnself]
  intro h
  have hx : Binary64.nan.isNaN = false :=
    h (.floating Binary64.nan) (.item List.mem_cons_self (.item List.mem_cons_self .here))
  exact absurd hx (by decide)

end JsonTree
