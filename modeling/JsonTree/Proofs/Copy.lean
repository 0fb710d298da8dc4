import JsonTree.Proofs.Equality
import JsonTree.Proofs.Rereading

/-!
# Copies — the same tree, whose texts are all its own

A copy has the same shape as its original: the same kinds, items and members in the same order under
the same keys, the same bytes and the same numbers bit by bit, what is no number included
(`SameTree`).  All that is new is that no string and no key of it is a view.

* `sameTree_detached`: giving every text bytes of its own leaves the tree as it is, and its content.
* `detached_detached`: doing so once more changes nothing.
* `Census.borrowed_foldl_count`: a census counts views and only views as borrowed.
* `copy_is_the_same_tree`: what this makes of copies.
-/

namespace JsonTree

namespace Value

/-- The values are the same tree, but for where bytes are kept. -/
inductive SameTree : Value → Value → Prop where
  | null : SameTree .null .null
  | boolean (b : Bool) : SameTree (.boolean b) (.boolean b)
  | integer (n : Int64) : SameTree (.integer n) (.integer n)
  | floating (x : Binary64) : SameTree (.floating x) (.floating x)
  | string {s t : Text} : s.bytes = t.bytes → SameTree (.string s) (.string t)
  | array {vs ws : List Value} : List.Forall₂ SameTree vs ws → SameTree (.array vs) (.array ws)
  | object {ms ns : Members} : ms.keys = ns.keys →
      List.Forall₂ SameTree (ms.map (·.2)) (ns.map (·.2)) → SameTree (.object ms) (.object ns)

/-- **With texts of its own a value is the same tree.** -/
theorem sameTree_detached (v : Value) : v.SameTree v.detached := by
  induction v with
  | null => exact .null
  | boolean b => exact .boolean b
  | integer n => exact .integer n
  | floating x => exact .floating x
  | string t => exact .string rfl
  | array items ih =>
      rw [detached, detachedItems_eq]
      exact .array (List.forall₂_map_right_iff.mpr (List.forall₂_same.mpr ih))
  | object members ih =>
      rw [detached, detachedMembers_eq]
      refine .object ?_ ?_
      · rw [Members.keys, Members.keys, List.map_map]
        rfl
      · rw [List.map_map, List.forall₂_map_left_iff, List.forall₂_map_right_iff]
        exact List.forall₂_same.mpr ih

theorem content_detached (v : Value) : v.detached.content = v.content := by
  induction v with
  | null | boolean _ | integer _ | floating _ | string _ => rfl
  | array items ih =>
      rw [detached, content, content, contents_eq, contents_eq, detachedItems_eq, List.map_map]
      exact congrArg Content.array (List.map_congr_left ih)
  | object members ih =>
      have hunder : ∀ ms : Members, (∀ m ∈ ms, m.2.detached.content = m.2.content) →
          ∀ key, contentUnder (detachedMembers ms) key = contentUnder ms key := by
        intro ms h key
        induction ms with
        | nil => rfl
        | cons m ms ihMembers =>
            obtain ⟨hm, hms⟩ := List.forall_mem_cons.mp h
            rw [detachedMembers, contentUnder, contentUnder, hm, ihMembers hms]
            rfl
      rw [detached, content, content]
      exact congrArg Content.object (funext (hunder members ih))

/-- Texts that are its own already stay as they are. -/
theorem detached_detached (v : Value) : v.detached.detached = v.detached := by
  induction v with
  | null | boolean _ | integer _ | floating _ | string _ => rfl
  | array items ih =>
      rw [detached, detached, detachedItems_eq, detachedItems_eq, List.map_map]
      exact congrArg array (List.map_congr_left ih)
  | object members ih =>
      rw [detached, detached, detachedMembers_eq, detachedMembers_eq, List.map_map]
      exact congrArg object (List.map_congr_left fun m hm => congrArg (Prod.mk _) (ih m hm))

end Value

/-! ### Counting views -/

/-- **A census counts as borrowed the views that it goes over**, and their bytes. -/
theorem Census.borrowed_foldl_count (ts : List Text) (c : Census) :
    (ts.foldl count c).borrowed = c.borrowed + ts.countP Text.borrowed ∧
      (ts.foldl count c).borrowedBytes =
        c.borrowedBytes + ((ts.filter Text.borrowed).map Text.size).sum := by
  induction ts generalizing c with
  | nil => exact ⟨rfl, rfl⟩
  | cons t ts ih =>
      rw [List.foldl_cons, (ih _).1, (ih _).2, count]
      cases ht : t.borrowed with
      | true => simp [ht]; omega
      | false => simp [ht]

theorem Census.borrowed_census (v : Value) :
    v.census.borrowed = v.texts.countP Text.borrowed := by
  rw [Value.census_eq, (borrowed_foldl_count v.texts {}).1, Nat.zero_add]

namespace Value

/-- A value borrows exactly when a view is counted in it. -/
theorem borrows_iff_census (v : Value) : v.borrows = true ↔ 0 < v.census.borrowed := by
  rw [borrows_iff, Census.borrowed_census, List.countP_pos_iff]

/-- **With texts of its own a value has as many strings and keys as before**, and as many bytes in
them, and no view. -/
theorem census_detached (v : Value) : v.detached.census =
    ⟨0, v.census.borrowed + v.census.owned, 0, v.census.borrowedBytes + v.census.ownedBytes⟩ := by
  have hsize : (v.texts.map Text.toOwned).map Text.size = v.texts.map Text.size := by
    rw [List.map_map]
    rfl
  have hnone : (v.texts.map Text.toOwned).filter Text.borrowed = [] := by
    rw [List.filter_eq_nil_iff]
    intro t ht
    obtain ⟨t, -, rfl⟩ := List.mem_map.mp ht
    exact Bool.false_ne_true
  have hborrowed := Census.borrowed_foldl_count (v.texts.map Text.toOwned) {}
  have hcopies := Census.foldl_count (v.texts.map Text.toOwned) {}
  have hall := Census.foldl_count v.texts {}
  rw [hsize, List.length_map] at hcopies
  rw [List.countP_eq_length_filter, hnone] at hborrowed
  rw [← texts_detached, ← census_eq] at hborrowed hcopies
  rw [← census_eq] at hall
  generalize v.detached.census = copy at *
  obtain ⟨borrowed, owned, borrowedBytes, ownedBytes⟩ := copy
  simp only [Census.total, Census.totalBytes, List.length_nil, List.map_nil, List.sum_nil,
    Census.mk.injEq] at *
  omega

end Value

open Value

/-- **A copy is the same tree with texts of its own.**  Let a value be built by the operations on
values.  Its copy has the same kinds, items and members in order, the same keys and bytes, and the
same numbers bit by bit; no string and no key of it is a view, and the census of the original counts
for the copy, with everything moved to its own texts.  A copy of the copy is the copy itself.  The
copy equals the original exactly when there is no not-a-number in it.

A value borrows exactly when its census counts a view. -/
theorem copy_is_the_same_tree {v : Value} (hv : Built v) :
    v.SameTree v.toOwned ∧
      (∀ t ∈ v.toOwned.texts, t.borrowed = false) ∧
      v.toOwned.census = ⟨0, v.census.borrowed + v.census.owned, 0,
        v.census.borrowedBytes + v.census.ownedBytes⟩ ∧
      v.toOwned.toOwned = v.toOwned ∧
      (v.toOwned.equal v = true ↔ v.Everywhere Numeric) ∧
      (v.borrows = true ↔ 0 < v.census.borrowed) := by
  have hkeyed : v.Everywhere Keyed := built_iff.mp hv
  have hcopy : v.toOwned = v.detached := toOwned_eq_detached hkeyed
  have hcopied : v.detached.Everywhere Keyed := hcopy ▸ everywhere_toOwned v
  refine ⟨?_, ?_, ?_, ?_, ?_, borrows_iff_census v⟩
  · rw [hcopy]
    exact sameTree_detached v
  · rw [hcopy, texts_detached]
    intro t ht
    obtain ⟨t, -, rfl⟩ := List.mem_map.mp ht
    rfl
  · rw [hcopy]
    exact census_detached v
  · rw [hcopy, toOwned_eq_detached hcopied, detached_detached]
  · rw [hcopy, equal_iff hcopied hkeyed, and_iff_right (content_detached v)]
    exact ⟨numeric_of_content hkeyed (content_detached v),
      numeric_of_content hcopied (content_detached v).symm⟩

/-- An object with a view for a key and one for an item, and with a not-a-number. -/
def viewsAndNaN : Value :=
  .object [(.borrow [0x6B], .floating Binary64.nan),
    (.own [], .array [.string (.borrow [0x61, 0x62]), .integer 1])]

theorem copy_is_the_same_tree_viewsAndNaN : Built viewsAndNaN ∧
    viewsAndNaN.SameTree viewsAndNaN.toOwned ∧ viewsAndNaN.toOwned.census = ⟨0, 3, 0, 3⟩ ∧
    viewsAndNaN.toOwned.equal viewsAndNaN = false ∧ viewsAndNaN.borrows = true := by
  have hbuilt : Built viewsAndNaN := built_iff.mpr (by
    simp [viewsAndNaN, Keyed, Members.Distinct, Members.keys, Text.own, Text.borrow])
  obtain ⟨hsame, -, hcensus, -, hequal, hborrows⟩ := copy_is_the_same_tree hbuilt
  refine ⟨hbuilt, hsame, hcensus, ?_, hborrows.mpr (by decide)⟩
  rw [← Bool.not_eq_true, hequal]
  intro h
  have hx : Binary64.nan.isNaN = false :=
    h (.floating Binary64.nan) (.member List.mem_cons_self .here)
  exact absurd hx (by decide)

end JsonTree
