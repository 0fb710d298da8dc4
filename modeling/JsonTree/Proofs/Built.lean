import JsonTree.Value.Edit
import JsonTree.Proofs.RoundTrip

/-!
# What can be built

Values come from a few operations: those that make one of each kind, where the members of an object
are inserted one after the other; reading a document; copying a value; and changing a value in
place, somewhere inside another.  None of them offers a way to change a key, so no object comes to
hold a key twice, whatever is done.

* `Value.everywhere_modifyAt`: a change in place keeps keys distinct if the change itself does.
* `toMembers_ownedMembers`: a copy of an object is made by inserting copies of its members.
* `built_iff`: what can be built are exactly the values whose keys are distinct.
-/

namespace JsonTree

/-! ### Changes in place -/

namespace Members

/-- The value under the first occurrence of the key is changed, and nothing else. -/
theorem exists_of_modifyFirst {ε α : Type} {key : Bytes} {f : Value → Except ε (α × Value)}
    {a : α} : ∀ {ms ns : Members}, modifyFirst key f ms = some (.ok (a, ns)) →
      ∃ before m v after, ms = before ++ m :: after ∧ f m.2 = .ok (a, v) ∧
        ns = before ++ (m.1, v) :: after := by
  intro ms
  induction ms with
  | nil => exact fun h => nomatch h
  | cons m ms ih =>
      intro ns h
      rw [modifyFirst] at h
      split at h
      · cases hf : f m.2 with
        | error e =>
            rw [hf] at h
            cases h
        | ok r =>
            rw [hf] at h
            obtain ⟨rfl, rfl⟩ := Prod.mk.inj (Except.ok.inj (Option.some.inj h))
            exact ⟨[], m, r.2, ms, rfl, hf, rfl⟩
      · obtain ⟨r, hr, h⟩ := Option.map_eq_some_iff.mp h
        cases r with
        | error e => cases h
        | ok r =>
            obtain ⟨rfl, rfl⟩ := Prod.mk.inj (Except.ok.inj h)
            obtain ⟨before, m', v, after, rfl, hf, hns⟩ := ih hr
            exact ⟨m :: before, m', v, after, rfl, hf, congrArg (m :: ·) hns⟩

end Members

namespace Value

/-- Where a key is spelled otherwise, or a value is another, keys are distinct as before. -/
theorem keyed_replace {before after : Members} {m m' : Member}
    (h : Keyed (.object (before ++ m :: after))) (hkey : m.1.bytes = m'.1.bytes) :
    Keyed (.object (before ++ m' :: after)) := by
  have hkeys : Members.keys (before ++ m' :: after) = Members.keys (before ++ m :: after) := by
    simp [Members.keys, hkey]
  rw [Keyed, Members.Distinct, hkeys]
  exact h

/-- **A change somewhere inside a value keeps keys distinct** if the change itself does. -/
theorem everywhere_modifyAt {α : Type} {f : Edit α} {path : List PathStep} {a : α}
    (hf : ∀ {v w : Value}, v.Everywhere Keyed → f v = .ok (a, w) → w.Everywhere Keyed) :
    ∀ {v w : Value}, v.Everywhere Keyed → v.modifyAt path f = .ok (a, w) → w.Everywhere Keyed := by
  -- on the path; a step into a value of the wrong kind changes nothing, and neither does a missing one
  induction path with
  | nil => exact fun hv h => hf hv (by rwa [modifyAt] at h)
  | cons step path ih =>
      intro v w hv h
      cases step with
      | item i =>
          cases v with
          | array items =>
              rw [modifyAt] at h
              cases hi : items[i]? with
              | none => simp [hi] at h
              | some item =>
                  simp only [hi] at h
                  cases hm : modifyAt path f item with
                  | error e => simp [hm, Except.map] at h
                  | ok r =>
                      rw [hm] at h
                      obtain ⟨rfl, rfl⟩ := Prod.mk.inj (Except.ok.inj h)
                      obtain ⟨-, hitems⟩ := everywhere_array.mp hv
                      refine everywhere_array.mpr ⟨trivial, fun u hu => ?_⟩
                      rcases List.mem_or_eq_of_mem_set hu with hu | rfl
                      · exact hitems u hu
                      · exact ih (hitems item (List.mem_of_getElem? hi)) hm
          | _ => simp [modifyAt] at h
      | key key =>
          cases v with
          | object members =>
              rw [modifyAt] at h
              cases hm : Members.modifyFirst key (modifyAt path f) members with
              | none => simp [hm] at h
              | some r =>
                  rw [hm] at h
                  cases r with
                  | error e => simp [Except.map] at h
                  | ok r =>
                      obtain ⟨rfl, rfl⟩ := Prod.mk.inj (Except.ok.inj h)
                      obtain ⟨before, m, v, after, rfl, hmv, hns⟩ :=
                        Members.exists_of_modifyFirst hm
                      obtain ⟨hkeys, hmembers⟩ := everywhere_object.mp hv
                      rw [hns]
                      refine everywhere_object.mpr ⟨keyed_replace hkeys rfl, fun n hn => ?_⟩
                      rcases List.mem_append.mp hn with hn | hn
                      · exact hmembers n (List.mem_append_left _ hn)
                      rcases List.mem_cons.mp hn with rfl | hn
                      · exact ih (hmembers m (List.mem_append_right _ List.mem_cons_self)) hmv
                      · exact hmembers n (List.mem_append_right _ (List.mem_cons_of_mem _ hn))
          | _ => simp [modifyAt] at h

/-! ### Copies -/

theorem ownedItems_eq (items : List Value) : ownedItems items = items.map toOwned := by
  induction items with
  | nil => rfl
  | cons v vs ih => rw [ownedItems, ih, List.map_cons]

/-- **Copies of the members are inserted one after the other.** -/
theorem toMembers_ownedMembers (members : Members) : ∀ {t : KeyTable}, t.Sound →
    (ownedMembers members t).toMembers =
      t.toMembers.insertAll (members.map fun m => (m.1.toOwned, m.2.toOwned)) := by
  induction members with
  | nil => exact fun _ => rfl
  | cons m ms ih =>
      intro t ht
      rw [ownedMembers, ih (ht.insert _ _), Table.toMembers_insert ht]
      rfl

theorem toOwned_object (members : Members) : (object members).toOwned =
    .object (Members.ofList (members.map fun m => (m.1.toOwned, m.2.toOwned))) := by
  rw [toOwned, toMembers_ownedMembers members Table.sound_empty]
  rfl

/-- The values of an object made by insertion are among those inserted. -/
theorem everywhere_ofList {given : List Member} (h : ∀ m ∈ given, m.2.Everywhere Keyed) :
    (object (Members.ofList given)).Everywhere Keyed := by
  have hall := @Members.of_mem_ofList (fun _ => True) (fun v => v.Everywhere Keyed) given
    fun m hm => ⟨trivial, h m hm⟩
  exact everywhere_object.mpr ⟨Members.distinct_ofList given, fun m hm => (hall m hm).2⟩

/-- A copy has distinct keys. -/
theorem everywhere_toOwned (v : Value) : v.toOwned.Everywhere Keyed := by
  induction v with
  | null => exact everywhere_null.mpr trivial
  | boolean b => exact everywhere_boolean.mpr trivial
  | integer n => exact everywhere_integer.mpr trivial
  | floating x => exact everywhere_floating.mpr trivial
  | string t => exact everywhere_string.mpr trivial
  | array items ih =>
      rw [toOwned, ownedItems_eq]
      refine everywhere_array.mpr ⟨trivial, fun w hw => ?_⟩
      obtain ⟨v, hv, rfl⟩ := List.mem_map.mp hw
      exact ih v hv
  | object members ih =>
      rw [toOwned_object]
      refine everywhere_ofList fun n hn => ?_
      obtain ⟨m, hm, rfl⟩ := List.mem_map.mp hn
      exact ih m hm

end Value

/-! ### Everything that can be built -/

/-- What can be built by the operations on values. -/
inductive Built : Value → Prop where
  | null : Built .null
  | boolean (b : Bool) : Built (.boolean b)
  | integer (n : Int64) : Built (.integer n)
  | floating (x : Binary64) : Built (.floating x)
  | string (t : Text) : Built (.string t)
  | array {items : List Value} : (∀ v ∈ items, Built v) → Built (.array items)
  /-- The members are inserted one after the other. -/
  | object {given : List Member} : (∀ m ∈ given, Built m.2) → Built (.object (Members.ofList given))
  | read {source : Slice} {options : ReadOptions} {v : Value} :
      parse source options = ⟨v, none⟩ → Built v
  | copy {v : Value} : Built v → Built v.toOwned
  /-- A value is put in the place of another inside a value. -/
  | replace {path : List PathStep} {u v w : Value} : Built u → Built v →
      v.modifyAt path (Edit.replace u) = .ok ((), w) → Built w
  /-- An item is appended to an array inside a value. -/
  | push {path : List PathStep} {u v w : Value} {n : Nat} : Built u → Built v →
      v.modifyAt path (Edit.push u) = .ok (n, w) → Built w
  /-- A key of an object inside a value is given a value. -/
  | insert {path : List PathStep} {key : Text} {u v w : Value} {ms : Members} : Built u → Built v →
      v.modifyAt path (Edit.insert key u) = .ok (ms, w) → Built w

open Value

theorem everywhere_push {n : Nat} {u v w : Value} (hu : u.Everywhere Keyed)
    (hv : v.Everywhere Keyed) (h : Edit.push u v = .ok (n, w)) : w.Everywhere Keyed := by
  cases v with
  | array items =>
      obtain ⟨-, rfl⟩ := Prod.mk.inj (Except.ok.inj h)
      refine everywhere_array.mpr ⟨trivial, fun x hx => ?_⟩
      rcases List.mem_append.mp hx with hx | hx
      · exact (everywhere_array.mp hv).2 x hx
      · rw [List.mem_singleton.mp hx]
        exact hu
  | _ => cases h

theorem everywhere_insert {key : Text} {ms : Members} {u v w : Value} (hu : u.Everywhere Keyed)
    (hv : v.Everywhere Keyed) (h : Edit.insert key u v = .ok (ms, w)) : w.Everywhere Keyed := by
  cases v with
  | object members =>
      obtain ⟨-, rfl⟩ := Prod.mk.inj (Except.ok.inj h)
      obtain ⟨hkeys, hmembers⟩ := everywhere_object.mp hv
      refine everywhere_object.mpr ⟨Members.distinct_insert hkeys key u, fun m hm => ?_⟩
      rcases Members.mem_insert hm with hm | ⟨rfl, -⟩
      · exact hmembers m hm
      · exact hu
  | _ => cases h

/-- **What can be built are exactly the values whose keys are distinct.** -/
theorem built_iff {v : Value} : Built v ↔ v.Everywhere Keyed := by
  constructor
  · intro h
    induction h with
    | null => exact everywhere_null.mpr trivial
    | boolean b => exact everywhere_boolean.mpr trivial
    | integer n => exact everywhere_integer.mpr trivial
    | floating x => exact everywhere_floating.mpr trivial
    | string t => exact everywhere_string.mpr trivial
    | array _ ih => exact everywhere_array.mpr ⟨trivial, ih⟩
    | object _ ih => exact everywhere_ofList ih
    | read h => exact (fit_of_parse h).1.mono fun u hu => hu.keyed
    | copy _ _ => exact everywhere_toOwned _
    | replace _ _ h hu hv =>
        refine everywhere_modifyAt (fun _ hf => ?_) hv h
        obtain ⟨-, rfl⟩ := Prod.mk.inj (Except.ok.inj hf)
        exact hu
    | push _ _ h hu hv => exact everywhere_modifyAt (everywhere_push hu) hv h
    | insert _ _ h hu hv => exact everywhere_modifyAt (everywhere_insert hu) hv h
  · intro h
    induction v with
    | null => exact .null
    | boolean b => exact .boolean b
    | integer n => exact .integer n
    | floating x => exact .floating x
    | string t => exact .string t
    | array items ih => exact .array fun v hv => ih v hv ((everywhere_array.mp h).2 v hv)
    | object members ih =>
        -- inserted in their order, distinct keys give the members themselves
        obtain ⟨hkeys, hmembers⟩ := everywhere_object.mp h
        rw [← Members.ofList_of_distinct hkeys]
        exact .object fun m hm => ih m hm (hmembers m hm)

end JsonTree
