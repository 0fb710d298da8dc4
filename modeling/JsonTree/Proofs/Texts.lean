import JsonTree.Value.Owned
import JsonTree.Proofs.Built

/-!
# Texts — the strings and keys of a value

The strings and keys of a value in the order in which they stand in it, a key before its value
(`Value.texts`).  What is said of the holdings of a value is said of this list: whether there is a
view among them, and how many of both sorts there are, with how many bytes.

A copy is the same tree with texts of its own (`Value.detached`).  It is made by inserting the
members of each object once more, which leaves them where they are as no key is there twice.

* `borrows_iff`, `census_eq`: views and counts are read off the list.
* `toOwned_eq_detached`: a copy of a value with distinct keys is the value with texts of its own.
-/

namespace JsonTree

namespace Value

mutual

/-- The strings and keys, in order. -/
def texts : Value → List Text
  | string t => [t]
  | array items => itemsTexts items
  | object members => membersTexts members
  | _ => []

/-- The strings and keys of items. -/
def itemsTexts : List Value → List Text
  | [] => []
  | v :: rest => texts v ++ itemsTexts rest

/-- The keys of members, and the strings and keys of their values. -/
def membersTexts : Members → List Text
  | [] => []
  | (key, v) :: rest => key :: texts v ++ membersTexts rest

end

mutual

/-- The same tree, each string and key with bytes of its own. -/
def detached : Value → Value
  | string t => string t.toOwned
  | array items => array (detachedItems items)
  | object members => object (detachedMembers members)
  | v => v

/-- The items, each with texts of its own. -/
def detachedItems : List Value → List Value
  | [] => []
  | v :: rest => detached v :: detachedItems rest

/-- The members, each with a key and texts of its own. -/
def detachedMembers : Members → Members
  | [] => []
  | (key, v) :: rest => (key.toOwned, detached v) :: detachedMembers rest

end

/-- The texts of items are those of each of them in order. -/
theorem itemsTexts_eq (items : List Value) : itemsTexts items = items.flatMap texts := by
  induction items with
  | nil => rfl
  | cons v vs ih => rw [itemsTexts, ih, List.flatMap_cons]

/-- The texts of members are each key and then the texts of its value. -/
theorem membersTexts_eq (members : Members) :
    membersTexts members = members.flatMap fun m => m.1 :: m.2.texts := by
  induction members with
  | nil => rfl
  | cons m ms ih => rw [membersTexts, ih, List.flatMap_cons]

/-- Items are detached one by one. -/
theorem detachedItems_eq (items : List Value) : detachedItems items = items.map detached := by
  induction items with
  | nil => rfl
  | cons v vs ih => rw [detachedItems, ih, List.map_cons]

/-- Members are detached one by one, keys and values. -/
theorem detachedMembers_eq (members : Members) :
    detachedMembers members = members.map fun m => (m.1.toOwned, m.2.detached) := by
  induction members with
  | nil => rfl
  | cons m ms ih => rw [detachedMembers, ih, List.map_cons]

/-! ### Views and counts -/

/-- Items borrow as soon as one of them does. -/
theorem itemsBorrow_iff (items : List Value) :
    itemsBorrow items = true ↔ ∃ v ∈ items, v.borrows = true := by
  induction items with
  | nil => simp [itemsBorrow]
  | cons v vs ih => rw [itemsBorrow, Bool.or_eq_true, ih, List.exists_mem_cons_iff]

theorem membersBorrow_iff (members : Members) :
    membersBorrow members = true ↔ ∃ m ∈ members, m.1.borrowed = true ∨ m.2.borrows = true := by
  induction members with
  | nil => simp [membersBorrow]
  | cons m ms ih =>
      rw [membersBorrow, Bool.or_eq_true, Bool.or_eq_true, ih, List.exists_mem_cons_iff]

/-- **A value borrows when one of its strings and keys is a view.** -/
theorem borrows_iff (v : Value) : v.borrows = true ↔ ∃ t ∈ v.texts, t.borrowed = true := by
  induction v with
  | null | boolean _ | integer _ | floating _ => simp [borrows, texts]
  | string t => simp [borrows, texts]
  | array items ih =>
      rw [borrows, itemsBorrow_iff, texts, itemsTexts_eq]
      simp only [List.mem_flatMap]
      constructor
      · rintro ⟨v, hv, h⟩
        obtain ⟨t, ht, hb⟩ := (ih v hv).mp h
        exact ⟨t, ⟨v, hv, ht⟩, hb⟩
      · rintro ⟨t, ⟨v, hv, ht⟩, hb⟩
        exact ⟨v, hv, (ih v hv).mpr ⟨t, ht, hb⟩⟩
  | object members ih =>
      rw [borrows, membersBorrow_iff, texts, membersTexts_eq]
      simp only [List.mem_flatMap, List.mem_cons]
      constructor
      · rintro ⟨m, hm, h | h⟩
        · exact ⟨m.1, ⟨m, hm, .inl rfl⟩, h⟩
        · obtain ⟨t, ht, hb⟩ := (ih m hm).mp h
          exact ⟨t, ⟨m, hm, .inr ht⟩, hb⟩
      · rintro ⟨t, ⟨m, hm, rfl | ht⟩, hb⟩
        · exact ⟨m, hm, .inl hb⟩
        · exact ⟨m, hm, .inr ((ih m hm).mpr ⟨t, ht, hb⟩)⟩

theorem countItems_eq (items : List Value) (c : Census) :
    countItems items c = items.foldl (fun c v => v.countTexts c) c := by
  induction items generalizing c with
  | nil => rfl
  | cons v vs ih => rw [countItems, ih, List.foldl_cons]

/-- The members are counted one by one, each key before its value. -/
theorem countMembers_eq (members : Members) (c : Census) :
    countMembers members c = members.foldl (fun c m => m.2.countTexts (c.count m.1)) c := by
  induction members generalizing c with
  | nil => rfl
  | cons m ms ih => rw [countMembers, ih, List.foldl_cons]

/-- **Counting goes over the strings and keys one by one.** -/
theorem countTexts_eq (v : Value) (c : Census) :
    v.countTexts c = v.texts.foldl Census.count c := by
  induction v generalizing c with
  | null | boolean _ | integer _ | floating _ | string _ => rfl
  | array items ih =>
      rw [countTexts, countItems_eq, texts, itemsTexts_eq, List.foldl_flatMap]
      exact List.foldl_ext _ _ c fun c v hv => ih v hv c
  | object members ih =>
      rw [countTexts, countMembers_eq, texts, membersTexts_eq, List.foldl_flatMap]
      exact List.foldl_ext _ _ c fun c m hm => ih m hm (c.count m.1)

/-- The census is taken over the texts in order. -/
theorem census_eq (v : Value) : v.census = v.texts.foldl Census.count {} :=
  v.countTexts_eq {}

/-! ### Copies -/

/-- Detaching a value makes each of its texts an owned one. -/
theorem texts_detached (v : Value) : v.detached.texts = v.texts.map Text.toOwned := by
  induction v with
  | null | boolean _ | integer _ | floating _ | string _ => rfl
  | array items ih =>
      rw [detached, texts, texts, itemsTexts_eq, itemsTexts_eq, detachedItems_eq, List.flatMap_map,
        List.map_flatMap]
      exact List.flatMap_congr ih
  | object members ih =>
      rw [detached, texts, texts, membersTexts_eq, membersTexts_eq, detachedMembers_eq,
        List.flatMap_map, List.map_flatMap]
      exact List.flatMap_congr fun m hm => congrArg (m.1.toOwned :: ·) (ih m hm)

/-- **A value with texts of its own holds no view.** -/
theorem borrows_detached (v : Value) : v.detached.borrows = false := by
  rw [← Bool.not_eq_true, borrows_iff, texts_detached]
  rintro ⟨t, ht, hb⟩
  obtain ⟨t, -, rfl⟩ := List.mem_map.mp ht
  exact Bool.false_ne_true hb

/-- **A copy of a value with distinct keys is the value with texts of its own.** -/
theorem toOwned_eq_detached {v : Value} (h : v.Everywhere Keyed) : v.toOwned = v.detached := by
  induction v with
  | null | boolean _ | integer _ | floating _ | string _ => rfl
  | array items ih =>
      obtain ⟨-, hitems⟩ := everywhere_array.mp h
      rw [toOwned, detached, ownedItems_eq, detachedItems_eq]
      exact congrArg array (List.map_congr_left fun v hv => ih v hv (hitems v hv))
  | object members ih =>
      obtain ⟨hkeys, hmembers⟩ := everywhere_object.mp h
      have hcopies : (members.map fun m => (m.1.toOwned, m.2.toOwned)) =
          members.map fun m => (m.1.toOwned, m.2.detached) :=
        List.map_congr_left fun m hm => congrArg (Prod.mk _) (ih m hm (hmembers m hm))
      have hdistinct : Members.Distinct (members.map fun m => (m.1.toOwned, m.2.detached)) := by
        have hsame : Members.keys (members.map fun m => (m.1.toOwned, m.2.detached)) =
            Members.keys members := by
          rw [Members.keys, Members.keys, List.map_map]
          rfl
        rw [Members.Distinct, hsame]
        exact hkeys
      rw [toOwned_object, hcopies, Members.ofList_of_distinct hdistinct, detached,
        detachedMembers_eq]

end Value

end JsonTree
