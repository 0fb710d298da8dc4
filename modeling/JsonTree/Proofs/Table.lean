import JsonTree.Value.Table
import Mathlib.Data.List.Nodup

/-!
# Tables — an indexed table is the list of its members

Insertion into a list of members goes through all of them.  A table finds the place of a key by its
index instead.  `Indexed` is what the index has to satisfy for that: every member's place is in the
bucket of its key.  It says nothing about what else a bucket holds, so it does not matter which keys
share a hash.

* `Members.distinct_insert`: an insertion keeps keys distinct.
* `Members.ofList_of_distinct`: members whose keys are distinct already stay as they are.
* `Table.toMembers_insert`: in an indexed table of distinct keys an insertion is the insertion into
  the list, and `Table.Sound.insert`: the table stays indexed and its keys distinct.
-/

namespace JsonTree

namespace Members

/-! ### Members with distinct keys -/

/-- The keys, in order. -/
def keys (ms : Members) : List Bytes :=
  ms.map fun m => m.1.bytes

/-- No key is there twice. -/
def Distinct (ms : Members) : Prop :=
  ms.keys.Nodup

theorem keys_cons (m : Member) (ms : Members) : keys (m :: ms) = m.1.bytes :: keys ms := rfl

/-- A new key is put at the end. -/
theorem insert_of_notMem {ms : Members} {key : Text} (v : Value) (h : key.bytes ∉ ms.keys) :
    ms.insert key v = ms ++ [(key, v)] := by
  induction ms with
  | nil => rfl
  | cons m ms ih =>
      rw [keys_cons, List.mem_cons, not_or] at h
      have hm : Member.hasKey key.bytes m = false := beq_false_of_ne (Ne.symm h.1)
      rw [insert, hm, if_neg Bool.false_ne_true, ih h.2, List.cons_append]

/-- Where the key is there already, its value is replaced in place. -/
theorem insert_of_getElem? {ms : Members} (hd : ms.Distinct) {i : Nat} {m : Member} {key : Text}
    (v : Value) (hi : ms[i]? = some m) (hm : m.1.bytes = key.bytes) :
    ms.insert key v = ms.modify i fun m => (m.1, v) := by
  induction ms generalizing i with
  | nil => cases hi
  | cons m' ms ih =>
      rw [Distinct, keys_cons, List.nodup_cons] at hd
      cases i with
      | zero =>
          obtain rfl : m' = m := Option.some.inj hi
          rw [insert, Member.hasKey, hm, beq_self_eq_true, if_pos rfl, List.modify_zero_cons]
      | succ i =>
          rw [List.getElem?_cons_succ] at hi
          have hmem : m.1.bytes ∈ ms.map fun m => m.1.bytes :=
            List.mem_map_of_mem (List.mem_of_getElem? hi)
          have hne : Member.hasKey key.bytes m' = false := by
            refine beq_false_of_ne fun he => hd.1 ?_
            rw [he, ← hm]
            exact hmem
          rw [insert, hne, if_neg Bool.false_ne_true, ih hd.2 hi, List.modify_succ_cons]

/-- Inserting keeps the keys and their order, and puts a new one at the end. -/
theorem keys_insert (ms : Members) (key : Text) (v : Value) :
    (ms.insert key v).keys = if key.bytes ∈ ms.keys then ms.keys else ms.keys ++ [key.bytes] := by
  induction ms with
  | nil => rfl
  | cons m ms ih =>
      rw [insert, keys_cons]
      by_cases hm : m.1.bytes = key.bytes
      · rw [Member.hasKey, hm, beq_self_eq_true, if_pos rfl, if_pos List.mem_cons_self, keys_cons, hm]
      · have hne : Member.hasKey key.bytes m = false := beq_false_of_ne hm
        rw [hne, if_neg Bool.false_ne_true, keys_cons, ih]
        by_cases hmem : key.bytes ∈ keys ms
        · rw [if_pos hmem, if_pos (List.mem_cons_of_mem _ hmem)]
        · have hnot : key.bytes ∉ m.1.bytes :: keys ms := by simp [Ne.symm hm, hmem]
          rw [if_neg hmem, if_neg hnot, List.cons_append]

/-- Inserting keeps the keys distinct. -/
theorem distinct_insert {ms : Members} (h : ms.Distinct) (key : Text) (v : Value) :
    (ms.insert key v).Distinct := by
  rw [Distinct, keys_insert]
  split
  · exact h
  · next hnot => exact List.Nodup.append h (List.nodup_singleton _) (by simpa using hnot)

/-- What a member of the result is: an old member, or an old or the new key with the new value. -/
theorem mem_insert {ms : Members} {key : Text} {v : Value} {m : Member}
    (h : m ∈ ms.insert key v) : m ∈ ms ∨ m.2 = v ∧ (m.1 = key ∨ ∃ v', (m.1, v') ∈ ms) := by
  induction ms with
  | nil =>
      obtain rfl := List.mem_singleton.mp h
      exact .inr ⟨rfl, .inl rfl⟩
  | cons m' ms ih =>
      rw [insert] at h
      split at h
      · rcases List.mem_cons.mp h with rfl | h
        · exact .inr ⟨rfl, .inr ⟨m'.2, List.mem_cons_self⟩⟩
        · exact .inl (List.mem_cons_of_mem _ h)
      · rcases List.mem_cons.mp h with rfl | h
        · exact .inl List.mem_cons_self
        · rcases ih h with h | ⟨hv, hk | ⟨v', hk⟩⟩
          · exact .inl (List.mem_cons_of_mem _ h)
          · exact .inr ⟨hv, .inl hk⟩
          · exact .inr ⟨hv, .inr ⟨v', List.mem_cons_of_mem _ hk⟩⟩

/-- Among distinct keys a member is found under its key. -/
theorem find?_of_mem {ms : Members} (hd : ms.Distinct) {m : Member} (hm : m ∈ ms) :
    ms.find? m.1.bytes = some m.2 := by
  induction ms with
  | nil => cases hm
  | cons m' ms ih =>
      rw [Distinct, keys_cons, List.nodup_cons] at hd
      rw [find?, List.find?_cons]
      rcases List.mem_cons.mp hm with rfl | hm
      · rw [Member.hasKey, beq_self_eq_true]
        rfl
      · have hmem : m.1.bytes ∈ keys ms := List.mem_map_of_mem hm
        have hne : Member.hasKey m.1.bytes m' = false := by
          refine beq_false_of_ne fun he => hd.1 ?_
          rw [he]
          exact hmem
        rw [hne]
        exact ih hd.2 hm

/-- Members are inserted one after the other. -/
def insertAll (ms : Members) (more : List Member) : Members :=
  more.foldl (fun ms m => ms.insert m.1 m.2) ms

/-- Inserting many members keeps the keys distinct. -/
theorem distinct_insertAll {ms : Members} (h : ms.Distinct) (more : List Member) :
    (ms.insertAll more).Distinct := by
  induction more generalizing ms with
  | nil => exact h
  | cons m more ih => exact ih (distinct_insert h m.1 m.2)

/-- The members of a list are collapsed to distinct keys. -/
theorem distinct_ofList (ms : List Member) : (ofList ms).Distinct :=
  have h : Distinct [] := List.nodup_nil
  distinct_insertAll h ms

/-- Members of distinct keys that are not there yet are put at the end. -/
theorem insertAll_of_distinct {ms more : Members} (h : Distinct (ms ++ more)) :
    ms.insertAll more = ms ++ more := by
  induction more generalizing ms with
  | nil => rw [List.append_nil]; rfl
  | cons m more ih =>
      have hnot : m.1.bytes ∉ ms.keys := by
        rw [Distinct, keys, List.map_append, List.map_cons] at h
        intro hmem
        exact (List.nodup_append.mp h).2.2 _ hmem _ List.mem_cons_self rfl
      have hinsert : ms.insertAll (m :: more) = (ms.insert m.1 m.2).insertAll more := rfl
      rw [hinsert, insert_of_notMem m.2 hnot, ih (by simpa using h), List.append_assoc]
      rfl

/-- Members whose keys are distinct stay as they are. -/
theorem ofList_of_distinct {ms : Members} (h : ms.Distinct) : ofList ms = ms :=
  insertAll_of_distinct (List.nil_append ms ▸ h)

/-- What holds of the members given holds of those that remain. -/
theorem of_mem_ofList {p : Text → Prop} {q : Value → Prop} {ms : List Member}
    (h : ∀ m ∈ ms, p m.1 ∧ q m.2) : ∀ m ∈ ofList ms, p m.1 ∧ q m.2 := by
  have hall : ∀ (more : List Member) (ms : Members), (∀ m ∈ ms, p m.1 ∧ q m.2) →
      (∀ m ∈ more, p m.1 ∧ q m.2) → ∀ m ∈ ms.insertAll more, p m.1 ∧ q m.2 := by
    intro more
    induction more with
    | nil => exact fun ms hms _ => hms
    | cons m more ih =>
        intro ms hms hmore
        refine ih (ms.insert m.1 m.2) ?_ fun m' hm' => hmore m' (List.mem_cons_of_mem _ hm')
        intro m' hm'
        have hm := hmore m List.mem_cons_self
        rcases mem_insert hm' with h | ⟨hv, hk | ⟨v', hk⟩⟩
        · exact hms m' h
        · exact ⟨hk ▸ hm.1, hv ▸ hm.2⟩
        · exact ⟨(hms _ hk).1, hv ▸ hm.2⟩
  exact hall ms [] (by simp) h

end Members

namespace Table

variable {hash : Bytes → UInt64}

/-! ### The index -/

/-- Keys are distinct, and every member's place is in the bucket of its key. -/
structure Sound (t : Table hash) : Prop where
  distinct : t.toMembers.Distinct
  indexed : ∀ i m, t.entries[i]? = some m → i ∈ t.bucket m.1.bytes

theorem sound_empty : (empty : Table hash).Sound where
  distinct := List.nodup_nil
  indexed i m h := by simp [empty] at h

/-- A place that is found is the place of the key. -/
theorem getElem?_of_place? {t : Table hash} {key : Bytes} {i : Nat} (h : t.place? key = some i) :
    ∃ m, t.toMembers[i]? = some m ∧ m.1.bytes = key := by
  have hany := List.find?_some h
  cases hm : t.entries[i]? with
  | none => simp [hm] at hany
  | some m =>
      rw [hm] at hany
      refine ⟨m, ?_, by simpa [Member.hasKey] using hany⟩
      rw [toMembers, Array.getElem?_toList]
      exact hm

/-- A key that is there has a place. -/
theorem notMem_of_place? {t : Table hash} (h : t.Sound) {key : Bytes}
    (hnone : t.place? key = none) : key ∉ t.toMembers.keys := by
  intro hmem
  obtain ⟨m, hm, rfl⟩ := List.mem_map.mp hmem
  obtain ⟨i, hi⟩ := List.mem_iff_getElem?.mp hm
  rw [toMembers, Array.getElem?_toList] at hi
  have hplace := List.find?_eq_none.mp hnone i (h.indexed i m hi)
  rw [hi] at hplace
  exact hplace (by simp [Member.hasKey])

/-- **An insertion into an indexed table is the insertion into the list of its members.** -/
theorem toMembers_insert {t : Table hash} (h : t.Sound) (key : Text) (v : Value) :
    (t.insert key v).toMembers = t.toMembers.insert key v := by
  rw [insert]
  cases hp : t.place? key.bytes with
  | some i =>
      obtain ⟨m, hi, hm⟩ := getElem?_of_place? hp
      rw [Members.insert_of_getElem? h.distinct v hi hm, toMembers, Array.toList_modify]
      rfl
  | none =>
      rw [Members.insert_of_notMem v (notMem_of_place? h hp), toMembers, Array.toList_push]
      rfl

/-- Inserting keeps the keys distinct and the index exact. -/
theorem Sound.insert {t : Table hash} (h : t.Sound) (key : Text) (v : Value) :
    (t.insert key v).Sound := by
  refine ⟨by rw [toMembers_insert h]; exact Members.distinct_insert h.distinct key v, ?_⟩
  intro i m hi
  rw [Table.insert] at hi ⊢
  cases hp : t.place? key.bytes with
  | some j =>
      -- places and keys stay
      rw [hp] at hi
      simp only [Array.getElem?_modify] at hi
      split at hi
      · obtain ⟨m', hm', rfl⟩ := Option.map_eq_some_iff.mp hi
        exact h.indexed i m' hm'
      · exact h.indexed i m hi
  | none =>
      rw [hp] at hi
      simp only [bucket, Std.TreeMap.getD_insert]
      rw [Array.getElem?_push] at hi
      split at hi
      · next hsize =>
          obtain rfl := Option.some.inj hi
          simp [hsize]
      · have hold := h.indexed i m hi
        rw [bucket] at hold
        split
        · next hc =>
            rw [← Std.compare_eq_iff_eq.mp hc] at hold
            exact List.mem_cons_of_mem _ hold
        · exact hold

end Table

end JsonTree
