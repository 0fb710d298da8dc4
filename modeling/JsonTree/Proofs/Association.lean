import JsonTree.Proofs.Table
import Mathlib.Data.Finset.Card

/-!
# Association — a table is the list of what has been assigned

A table is filled by assigning values to keys, any number of times and in any order.  What it holds
then is told by the list of the assignments alone: under a key there is the value last assigned to
it, and the keys stand in the order in which they were first assigned to, as they were spelled then.
None of this depends on the hash, on how keys fall together under it, or on the order in which the
places under one hash are gone through.

* `Members.ofList_eq_collapse`: members inserted one after the other are the first keys with the
  last values.
* `Table.Exact.insert`: the index keeps every place once, under the hash of its key, and nothing
  else.
* `Table.run_refines`: after any run of changes a table is the association list of what the run has
  assigned.
-/

namespace JsonTree

/-! ### First keys and last values -/

/-- A list without repetitions grows at its end by what is not in it yet. -/
theorem eraseDupsBy_concat {α : Type} (r : α → α → Bool) (as : List α) (a : α) :
    (as ++ [a]).eraseDupsBy r =
      if (as.eraseDupsBy r).any (r a) then as.eraseDupsBy r else as.eraseDupsBy r ++ [a] := by
  have loop : ∀ seen, List.eraseDupsBy.loop r (as ++ [a]) seen =
      if (List.eraseDupsBy.loop r as seen).any (r a) then List.eraseDupsBy.loop r as seen
      else List.eraseDupsBy.loop r as seen ++ [a] := by
    induction as with
    | nil =>
        intro seen
        cases h : seen.any (r a) <;> simp [List.eraseDupsBy.loop, h]
    | cons b as ih =>
        intro seen
        rw [List.cons_append, List.eraseDupsBy.loop, List.eraseDupsBy.loop]
        split
        · exact ih seen
        · exact ih (b :: seen)
  exact loop []

namespace Members

/-- The keys in the order in which they were first given, each as it was spelled then. -/
def firstKeys (given : List Member) : List Text :=
  (given.map (·.1)).eraseDupsBy Text.sameBytes

/-- The value given last to a key. -/
def lastValue? (given : List Member) (key : Bytes) : Option Value :=
  find? given.reverse key

/-- Every key once: where and as it was first given, with the value it was given last. -/
def collapse (given : List Member) : Members :=
  (firstKeys given).filterMap fun key => (lastValue? given key.bytes).map fun v => (key, v)

theorem ofList_concat (given : List Member) (m : Member) :
    ofList (given ++ [m]) = (ofList given).insert m.1 m.2 := by
  rw [ofList, List.foldl_append]
  rfl

theorem find?_cons (m : Member) (ms : Members) (key : Bytes) :
    find? (m :: ms) key = if m.1.bytes = key then some m.2 else ms.find? key := by
  rw [find?, List.find?_cons]
  by_cases hm : m.1.bytes = key
  · simp [Member.hasKey, hm]
  · have hne : Member.hasKey key m = false := beq_false_of_ne hm
    rw [hne, if_neg hm]
    rfl

/-- An insertion is seen under its own key only. -/
theorem find?_insert (ms : Members) (key : Text) (v : Value) (k : Bytes) :
    (ms.insert key v).find? k = if key.bytes = k then some v else ms.find? k := by
  induction ms with
  | nil => rw [insert, find?_cons]
  | cons m ms ih =>
      rw [insert, find?_cons]
      by_cases hm : m.1.bytes = key.bytes
      · rw [Member.hasKey, hm, beq_self_eq_true, if_pos rfl, find?_cons, hm]
        split <;> rfl
      · have hne : Member.hasKey key.bytes m = false := beq_false_of_ne hm
        rw [hne, if_neg Bool.false_ne_true, find?_cons, ih]
        by_cases hk : m.1.bytes = k
        · have hkey : key.bytes ≠ k := fun h => hm (hk.trans h.symm)
          rw [if_pos hk, if_neg hkey, if_pos hk]
        · rw [if_neg hk, if_neg hk]

/-- **The value found is the one given last.** -/
theorem find?_ofList (given : List Member) (key : Bytes) :
    (ofList given).find? key = lastValue? given key := by
  induction given using List.reverseRecOn with
  | nil => rfl
  | append_singleton given m ih =>
      rw [ofList_concat, find?_insert, ih, lastValue?, lastValue?, List.reverse_append,
        List.reverse_singleton, List.singleton_append, find?_cons]

theorem texts_insert (ms : Members) (key : Text) (v : Value) :
    (ms.insert key v).map (·.1) =
      if (ms.map (·.1)).any key.sameBytes then ms.map (·.1) else ms.map (·.1) ++ [key] := by
  induction ms with
  | nil => rfl
  | cons m ms ih =>
      rw [insert, List.map_cons, List.any_cons]
      by_cases hm : m.1.bytes = key.bytes
      · have hsame : key.sameBytes m.1 = true := beq_iff_eq.mpr hm.symm
        rw [Member.hasKey, hm, beq_self_eq_true, if_pos rfl, hsame]
        rfl
      · have hne : Member.hasKey key.bytes m = false := beq_false_of_ne hm
        have hsame : key.sameBytes m.1 = false := beq_false_of_ne (Ne.symm hm)
        rw [hne, if_neg Bool.false_ne_true, hsame, Bool.false_or, List.map_cons, ih]
        split <;> rfl

/-- **The keys are the ones first given, in that order.** -/
theorem texts_ofList (given : List Member) : (ofList given).map (·.1) = firstKeys given := by
  induction given using List.reverseRecOn with
  | nil => rfl
  | append_singleton given m ih =>
      rw [ofList_concat, texts_insert, ih, firstKeys, firstKeys, List.map_append,
        List.map_singleton, eraseDupsBy_concat]

/-- A place holds what it held, but for a new value where the key is the one given. -/
theorem getElem?_insert {ms : Members} (hd : ms.Distinct) {i : Nat} {m : Member}
    (hi : ms[i]? = some m) (key : Text) (v : Value) :
    (ms.insert key v)[i]? = some (if m.1.bytes = key.bytes then (m.1, v) else m) := by
  induction ms generalizing i with
  | nil => cases hi
  | cons m' ms ih =>
      rw [Distinct, keys_cons, List.nodup_cons] at hd
      by_cases hm : m'.1.bytes = key.bytes
      · rw [insert, Member.hasKey, hm, beq_self_eq_true, if_pos rfl]
        cases i with
        | zero =>
            obtain rfl : m' = m := Option.some.inj hi
            rw [if_pos hm]
            rfl
        | succ i =>
            -- the key is not there a second time
            have hmem : m.1.bytes ∈ keys ms := List.mem_map_of_mem (List.mem_of_getElem? hi)
            have hne : m.1.bytes ≠ key.bytes := fun h => hd.1 (by rw [hm, ← h]; exact hmem)
            rw [if_neg hne]
            exact hi
      · have hne : Member.hasKey key.bytes m' = false := beq_false_of_ne hm
        rw [insert, hne, if_neg Bool.false_ne_true]
        cases i with
        | zero =>
            obtain rfl : m' = m := Option.some.inj hi
            rw [if_neg hm]
            rfl
        | succ i => exact ih hd.2 hi

theorem mem_keys_ofList (given : List Member) (key : Bytes) :
    key ∈ (ofList given).keys ↔ key ∈ given.map fun m => m.1.bytes := by
  induction given using List.reverseRecOn with
  | nil => rfl
  | append_singleton given m ih =>
      rw [ofList_concat, keys_insert, List.map_append, List.mem_append, ← ih, List.map_singleton,
        List.mem_singleton]
      split
      · next hmem =>
          refine ⟨.inl, ?_⟩
          rintro (h | rfl)
          · exact h
          · exact hmem
      · rw [List.mem_append, List.mem_singleton]

/-- There are as many members as keys have been given. -/
theorem length_ofList (given : List Member) :
    (ofList given).length = (given.map fun m => m.1.bytes).toFinset.card := by
  have hset : (given.map fun m => m.1.bytes).toFinset = (ofList given).keys.toFinset := by
    ext key
    rw [List.mem_toFinset, List.mem_toFinset, mem_keys_ofList]
  rw [hset, List.toFinset_card_of_nodup (distinct_ofList given), keys, List.length_map]

/-- Members of distinct keys are told by their keys and what is found under them. -/
theorem eq_filterMap_of_distinct {ms : Members} (h : ms.Distinct) :
    ms = (ms.map (·.1)).filterMap fun key => (ms.find? key.bytes).map fun v => (key, v) := by
  have hmem : ∀ m ∈ ms, ((fun key : Text => (ms.find? key.bytes).map fun v => (key, v)) ∘
      fun m => m.1) m = some m := by
    intro m hm
    rw [Function.comp_apply, find?_of_mem h hm]
    rfl
  rw [List.filterMap_map, List.filterMap_congr hmem, List.filterMap_some]

/-- **Members inserted one after the other are the first keys with the last values.** -/
theorem ofList_eq_collapse (given : List Member) : ofList given = collapse given := by
  rw [eq_filterMap_of_distinct (distinct_ofList given), texts_ofList, collapse]
  simp only [find?_ofList]

end Members

namespace Table

variable {hash : Bytes → UInt64}

/-! ### The index, exactly -/

/-- The member at a place has a key with the hash. -/
def Under (t : Table hash) (h : UInt64) (i : Nat) : Bool :=
  (t.entries[i]?).any fun m => hash m.1.bytes == h

/-- The index refers to every place once, under the hash of its key, and to nothing else. -/
def Exact (t : Table hash) : Prop :=
  ∀ h i, (t.index.getD h []).count i = if t.Under h i then 1 else 0

theorem exact_empty : (empty : Table hash).Exact := by
  intro h i
  simp [empty, Under]

/-- Assigning to a key that is there moves no place. -/
theorem under_modify (t : Table hash) (j : Nat) (v : Value) (h : UInt64) (i : Nat) :
    ({ t with entries := t.entries.modify j fun m => (m.1, v) } : Table hash).Under h i =
      t.Under h i := by
  rw [Under, Under, Array.getElem?_modify]
  split
  · cases t.entries[i]? <;> rfl
  · rfl

/-- **An assignment keeps the index exact.** -/
theorem Exact.insert {t : Table hash} (h : t.Exact) (key : Text) (v : Value) :
    (t.insert key v).Exact := by
  intro k i
  rw [Table.insert]
  cases hp : t.place? key.bytes with
  | some j =>
      dsimp only
      rw [under_modify]
      exact h k i
  | none =>
      have hold := h k i
      rw [Under] at hold ⊢
      dsimp only [bucket]
      rw [Std.TreeMap.getD_insert, Array.getElem?_push]
      by_cases hi : i = t.entries.size
      · -- the new place was under no hash before
        subst hi
        rw [Array.getElem?_eq_none (Nat.le_refl _)] at hold
        rw [if_pos rfl]
        by_cases hk : hash key.bytes = k
        · subst hk
          rw [if_pos (Std.compare_self), List.count_cons_self, hold]
          simp
        · have hne : compare (hash key.bytes) k ≠ .eq := fun he => hk (Std.compare_eq_iff_eq.mp he)
          rw [if_neg hne, hold]
          simp [hk]
      · rw [if_neg hi]
        by_cases hk : hash key.bytes = k
        · subst hk
          rw [if_pos (Std.compare_self), List.count_cons_of_ne (Ne.symm hi)]
          exact hold
        · have hne : compare (hash key.bytes) k ≠ .eq := fun he => hk (Std.compare_eq_iff_eq.mp he)
          rw [if_neg hne]
          exact hold

/-! ### Looking a key up -/

/-- The key stands at the place. -/
def Holds (t : Table hash) (key : Bytes) (i : Nat) : Bool :=
  (t.entries[i]?).any (Member.hasKey key)

theorem holds_iff {t : Table hash} {key : Bytes} {i : Nat} :
    t.Holds key i = true ↔ t.toMembers.keys[i]? = some key := by
  rw [Holds, Option.any_eq_true, Members.keys, List.getElem?_map, Option.map_eq_some_iff, toMembers,
    Array.getElem?_toList]
  simp only [Member.hasKey, beq_iff_eq]

/-- A key stands at one place only. -/
theorem Holds.unique {t : Table hash} (hd : t.toMembers.Distinct) {key : Bytes} {i j : Nat}
    (hi : t.Holds key i = true) (hj : t.Holds key j = true) : i = j := by
  rw [holds_iff] at hi hj
  obtain ⟨hlt, -⟩ := List.getElem?_eq_some_iff.mp hi
  exact (List.getElem?_inj hlt hd).mp (hi.trans hj.symm)

/-- The order in which places are gone through does not matter when one of them at most is looked
for. -/
theorem find?_perm {α : Type} {p : α → Bool} {as bs : List α} (h : as.Perm bs)
    (unique : ∀ a b, p a = true → p b = true → a = b) : as.find? p = bs.find? p := by
  cases hb : bs.find? p with
  | none =>
      rw [List.find?_eq_none] at hb ⊢
      exact fun a ha => hb a (h.mem_iff.mp ha)
  | some b =>
      have hpb := List.find?_some hb
      cases ha : as.find? p with
      | none =>
          have hmem := h.mem_iff.mpr (List.mem_of_find?_eq_some hb)
          exact absurd hpb (List.find?_eq_none.mp ha b hmem)
      | some a => rw [unique a b (List.find?_some ha) hpb]

/-- **A look-up is a search through the members.** -/
theorem find?_eq {t : Table hash} (h : t.Sound) (key : Bytes) :
    t.find? key = t.toMembers.find? key := by
  rw [find?]
  cases hp : t.place? key with
  | some i =>
      obtain ⟨m, hi, rfl⟩ := getElem?_of_place? hp
      rw [Members.find?_of_mem h.distinct (List.mem_of_getElem? hi)]
      rw [toMembers, Array.getElem?_toList] at hi
      rw [Option.bind_some, hi]
      rfl
  | none =>
      have hnot := notMem_of_place? h hp
      rw [Option.bind_none, Members.find?, List.find?_eq_none.mpr, Option.map_none]
      intro m hm hkey
      exact hnot (List.mem_map.mpr ⟨m, hm, by simpa [Member.hasKey] using hkey⟩)

/-! ### Runs of changes -/

/-- Makes room for `n` members. -/
def reserve (t : Table hash) (n : Nat) : Table hash :=
  { t with entries := Array.emptyWithCapacity (max n t.size) ++ t.entries }

@[simp] theorem reserve_eq (t : Table hash) (n : Nat) : t.reserve n = t := by
  simp [reserve]

/-- What can be done to a table. -/
inductive Change where
  /-- A key is given a value. -/
  | insert (key : Text) (value : Value)
  /-- A key is given a value, and the table is answered for further changes. -/
  | adding (key : Text) (value : Value)
  | reserve (n : Nat)

/-- The table behind a change. -/
def Change.apply (t : Table hash) : Change → Table hash
  | insert key value => t.insert key value
  | adding key value => t.insert key value
  | reserve n => t.reserve n

/-- The key and the value that a change gives. -/
def Change.given? : Change → Option Member
  | insert key value | adding key value => some (key, value)
  | reserve _ => none

/-- The table behind all the changes, made one after the other. -/
def run (changes : List Change) : Table hash :=
  changes.foldl Change.apply empty

/-- The keys and values that the changes give, in order. -/
def given (changes : List Change) : List Member :=
  changes.filterMap Change.given?

/-- The table is the plain association list of what has been given. -/
structure Refines (t : Table hash) (given : List Member) : Prop where
  /-- No key is there twice. -/
  distinct : t.toMembers.Distinct
  /-- The index refers to every place once, under the hash of its key, and to nothing else. -/
  exact : t.Exact
  /-- A look-up is a linear scan. -/
  scan : ∀ key, t.find? key = t.toMembers.find? key
  contains_eq : ∀ key, t.contains key = t.toMembers.any (Member.hasKey key)
  /-- In whatever order the places under a hash are gone through, the same place is found. -/
  order : ∀ key (places : List Nat), places.Perm (t.bucket key) →
    places.find? (t.Holds key) = t.place? key
  /-- The value found is the one given last. -/
  last : ∀ key, t.find? key = Members.lastValue? given key
  /-- The keys stand in the order in which they were first given, as they were spelled then. -/
  first : t.toMembers.map (·.1) = Members.firstKeys given
  /-- There are as many members as different keys have been given. -/
  size_eq : t.size = (given.map fun m => m.1.bytes).toFinset.card
  /-- A further assignment changes the value of no other key. -/
  others : ∀ (key : Text) (v : Value) (k : Bytes), key.bytes ≠ k →
    (t.insert key v).find? k = t.find? k
  /-- A further assignment moves no member, and changes none but the one of its key. -/
  places : ∀ (key : Text) (v : Value) (i : Nat) (m : Member), t.toMembers[i]? = some m →
    (t.insert key v).toMembers[i]? = some (if m.1.bytes = key.bytes then (m.1, v) else m)

/-- A sound table with an exact index refines what its members have been made of. -/
theorem Refines.of_toMembers {t : Table hash} {given : List Member} (hsound : t.Sound)
    (hexact : t.Exact) (h : t.toMembers = Members.ofList given) : t.Refines given where
  distinct := hsound.distinct
  exact := hexact
  scan := find?_eq hsound
  contains_eq key := by
    rw [contains, find?_eq hsound, Members.find?, Option.isSome_map, Bool.eq_iff_iff,
      List.find?_isSome, List.any_eq_true]
  order key places hp := find?_perm hp fun i j => Holds.unique hsound.distinct
  last key := by rw [find?_eq hsound, h, Members.find?_ofList]
  first := by rw [h, Members.texts_ofList]
  size_eq := by
    rw [← Members.length_ofList, ← h]
    rfl
  others key v k hne := by
    rw [find?_eq (hsound.insert key v), toMembers_insert hsound, Members.find?_insert, if_neg hne,
      find?_eq hsound]
  places key v i m hi := by
    rw [toMembers_insert hsound]
    exact Members.getElem?_insert hsound.distinct hi key v

/-- A change keeps a table sound and its index exact, and gives its members what it gives. -/
theorem Change.apply_spec {t : Table hash} (hsound : t.Sound) (hexact : t.Exact) (c : Change) :
    (c.apply t).Sound ∧ (c.apply t).Exact ∧
      (c.apply t).toMembers = t.toMembers.insertAll c.given?.toList := by
  cases c with
  | insert key v | adding key v =>
      exact ⟨hsound.insert key v, hexact.insert key v, toMembers_insert hsound key v⟩
  | reserve n =>
      rw [apply, reserve_eq]
      exact ⟨hsound, hexact, rfl⟩

/-- **A table is the association list of what it has been given**, behind any run of changes and
whatever the hash. -/
theorem run_refines (hash : Bytes → UInt64) (changes : List Change) :
    (run changes : Table hash).Refines (given changes) := by
  have spec : (run changes : Table hash).Sound ∧ (run changes : Table hash).Exact ∧
      (run changes : Table hash).toMembers = Members.ofList (given changes) := by
    -- one change after the other, the last one last
    induction changes using List.reverseRecOn with
    | nil => exact ⟨sound_empty, exact_empty, rfl⟩
    | append_singleton changes c ih =>
        obtain ⟨hsound, hexact, h⟩ := ih
        have hstep : (run (changes ++ [c]) : Table hash) = c.apply (run changes) :=
          List.foldl_concat ..
        obtain ⟨hsound', hexact', h'⟩ := c.apply_spec hsound hexact
        refine ⟨hstep ▸ hsound', hstep ▸ hexact', ?_⟩
        rw [hstep, h', h, given, given, List.filterMap_append, Members.ofList, Members.ofList,
          List.foldl_append]
        cases c <;> rfl
  exact .of_toMembers spec.1 spec.2.1 spec.2.2

end Table

end JsonTree
