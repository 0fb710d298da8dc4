import JsonTree.Value.Equality
import JsonTree.Proofs.Table
import JsonTree.Proofs.Utf8

/-!
# Values as trees

A value is looked at as a tree: `Value.ind` is induction over it, `Inside` is being some part of it,
and `Everywhere p` says that `p` holds of the value and of everything inside.  What reading and
writing promise each other is stated in these terms: texts are well formed, keys are distinct,
floating point numbers are finite unless others are allowed, and `depth` bounds the nesting.

Two values are twins (`Twin`) when they are the same tree, but for where bytes are kept and for
which not-a-number is meant.

* `Twin.equal`: twins are equal, when there is no not-a-number.
-/

namespace JsonTree

theorem Binary64.isFinite_of_isNaN {x : Binary64} (h : x.isNaN = true) : x.isFinite = false := by
  have hlt : Binary64.infinite < x.magnitude := of_decide_eq_true h
  exact decide_eq_false (Nat.lt_asymm hlt)

namespace Value

/-- Induction over the tree. -/
@[elab_as_elim, induction_eliminator]
theorem ind {motive : Value → Prop} (null : motive .null)
    (boolean : ∀ b, motive (.boolean b)) (integer : ∀ n, motive (.integer n))
    (floating : ∀ x, motive (.floating x)) (string : ∀ t, motive (.string t))
    (array : ∀ items, (∀ v ∈ items, motive v) → motive (.array items))
    (object : ∀ members, (∀ m ∈ members, motive m.2) → motive (.object members)) :
    ∀ v, motive v := by
  refine @Value.rec motive (fun items => ∀ v ∈ items, motive v)
    (fun members => ∀ m ∈ members, motive m.2) (fun m => motive m.2) null boolean integer floating
    string array object ?_ ?_ ?_ ?_ ?_
  · exact fun _ hv => nomatch hv
  · intro v vs hv hvs w hw
    rcases List.mem_cons.mp hw with rfl | hw
    · exact hv
    · exact hvs w hw
  · exact fun _ hm => nomatch hm
  · intro m ms hm hms n hn
    rcases List.mem_cons.mp hn with rfl | hn
    · exact hm
    · exact hms n hn
  · exact fun _ _ hv => hv

/-- The first value is the second or stands somewhere inside it. -/
inductive Inside (u : Value) : Value → Prop where
  | here : Inside u u
  | item {v : Value} {items : List Value} : v ∈ items → Inside u v → Inside u (.array items)
  | member {m : Member} {members : Members} : m ∈ members → Inside u m.2 →
      Inside u (.object members)

/-- The property holds of the value and of everything inside it. -/
def Everywhere (p : Value → Prop) (v : Value) : Prop :=
  ∀ u, Inside u v → p u

variable {p q : Value → Prop}

/-- What holds everywhere in a value holds of the value itself. -/
theorem Everywhere.self {v : Value} (h : v.Everywhere p) : p v :=
  h v .here

/-- A weaker property holds everywhere as well. -/
theorem Everywhere.mono {v : Value} (h : v.Everywhere p) (hpq : ∀ u, p u → q u) :
    v.Everywhere q :=
  fun u hu => hpq u (h u hu)

/-- An array has a property everywhere when it has it itself and all of its items do. -/
@[simp] theorem everywhere_array {items : List Value} :
    (array items).Everywhere p ↔ p (.array items) ∧ ∀ v ∈ items, v.Everywhere p := by
  constructor
  · intro h
    exact ⟨h.self, fun v hv u hu => h u (.item hv hu)⟩
  · rintro ⟨hself, h⟩ u (_ | ⟨hv, hu⟩)
    · exact hself
    · exact h _ hv u hu

/-- An object has a property everywhere when it has it itself and the values of all its members do;
nothing is asked of the keys. -/
@[simp] theorem everywhere_object {members : Members} :
    (object members).Everywhere p ↔ p (.object members) ∧ ∀ m ∈ members, m.2.Everywhere p := by
  constructor
  · intro h
    exact ⟨h.self, fun m hm u hu => h u (.member hm hu)⟩
  · rintro ⟨hself, h⟩ u (_ | _ | ⟨hm, hu⟩)
    · exact hself
    · exact h _ hm u hu

/-- Neither an array nor an object. -/
def IsScalar : Value → Prop
  | array _ | object _ => False
  | _ => True

/-- In a scalar there is nothing but the scalar. -/
theorem everywhere_scalar {v : Value} (hv : v.IsScalar) : v.Everywhere p ↔ p v := by
  constructor
  · exact Everywhere.self
  · rintro h u (_ | _ | _)
    · exact h
    · exact hv.elim
    · exact hv.elim

@[simp] theorem everywhere_null : null.Everywhere p ↔ p .null :=
  everywhere_scalar trivial

@[simp] theorem everywhere_boolean {b : Bool} : (boolean b).Everywhere p ↔ p (.boolean b) :=
  everywhere_scalar trivial

@[simp] theorem everywhere_integer {n : Int64} : (integer n).Everywhere p ↔ p (.integer n) :=
  everywhere_scalar trivial

@[simp] theorem everywhere_floating {x : Binary64} :
    (floating x).Everywhere p ↔ p (.floating x) :=
  everywhere_scalar trivial

@[simp] theorem everywhere_string {t : Text} : (string t).Everywhere p ↔ p (.string t) :=
  everywhere_scalar trivial

/-! ### What reading and writing promise -/

/-- A string, and the keys of an object, are well formed. -/
def Encoded : Value → Prop
  | string t => Utf8.WellFormed t.bytes
  | object members => ∀ m ∈ members, Utf8.WellFormed m.1.bytes
  | _ => True

/-- The keys of an object are distinct. -/
def Keyed : Value → Prop
  | object members => Members.Distinct members
  | _ => True

/-- A floating point number is finite, unless others are allowed. -/
def Allowed (allowNonFinite : Bool) : Value → Prop
  | floating x => x.isFinite = true ∨ allowNonFinite = true
  | _ => True

/-- What two options allow together, the first one allows. -/
theorem Allowed.of_and_left {a b : Bool} {v : Value} (h : Allowed (a && b) v) : Allowed a v := by
  cases v with
  | floating x => exact h.imp_right fun hab => (Bool.and_eq_true_iff.mp hab).1
  | _ => trivial

/-- What two options allow together, the second one allows. -/
theorem Allowed.of_and_right {a b : Bool} {v : Value} (h : Allowed (a && b) v) : Allowed b v := by
  cases v with
  | floating x => exact h.imp_right fun hab => (Bool.and_eq_true_iff.mp hab).2
  | _ => trivial

/-- A floating point number is a number. -/
def Numeric : Value → Prop
  | floating x => x.isNaN = false
  | _ => True

mutual

/-- How deep arrays and objects are nested. -/
def depth : Value → Nat
  | array items => itemsDepth items + 1
  | object members => membersDepth members + 1
  | _ => 0

/-- How deep they are nested in the items. -/
def itemsDepth : List Value → Nat
  | [] => 0
  | v :: vs => max (depth v) (itemsDepth vs)

/-- How deep they are nested in the members. -/
def membersDepth : Members → Nat
  | [] => 0
  | (_, v) :: ms => max (depth v) (membersDepth ms)

end

/-- The depth of items is the greatest of theirs. -/
theorem itemsDepth_le_iff {items : List Value} {n : Nat} :
    itemsDepth items ≤ n ↔ ∀ v ∈ items, v.depth ≤ n := by
  induction items with
  | nil => simp [itemsDepth]
  | cons v vs ih => rw [itemsDepth, Nat.max_le, ih, List.forall_mem_cons]

/-- The depth of members is the greatest of those of their values. -/
theorem membersDepth_le_iff {members : Members} {n : Nat} :
    membersDepth members ≤ n ↔ ∀ m ∈ members, m.2.depth ≤ n := by
  induction members with
  | nil => simp [membersDepth]
  | cons m ms ih => rw [membersDepth, Nat.max_le, ih, List.forall_mem_cons]

/-! ### Twins -/

mutual

/-- The values are the same tree, but for where bytes are kept and for which not-a-number is
meant. -/
def Twin : Value → Value → Prop
  | null, null => True
  | boolean a, boolean b => a = b
  | integer a, integer b => a = b
  | floating x, floating y => x = y ∨ x.isNaN = true ∧ y.isNaN = true
  | string s, string t => s.bytes = t.bytes
  | array vs, array ws => TwinItems vs ws
  | object ms, object ns => TwinMembers ms ns
  | _, _ => False

/-- The items are twins one by one. -/
def TwinItems : List Value → List Value → Prop
  | [], [] => True
  | v :: vs, w :: ws => Twin v w ∧ TwinItems vs ws
  | _, _ => False

/-- The members are twins one by one, under the same keys. -/
def TwinMembers : Members → Members → Prop
  | [], [] => True
  | (key, v) :: ms, (key', w) :: ns => key.bytes = key'.bytes ∧ Twin v w ∧ TwinMembers ms ns
  | _, _ => False

end

namespace Twin

/-! What the twin of a value of a kind is. -/

variable {w : Value}

/-- The twin of a null is a null. -/
theorem null_inv (h : Twin .null w) : w = .null := by
  cases w with
  | null => rfl
  | _ => exact h.elim

theorem boolean_inv {b : Bool} (h : Twin (.boolean b) w) : w = .boolean b := by
  cases w with
  | boolean b' => exact congrArg Value.boolean (Eq.symm h)
  | _ => exact h.elim

theorem integer_inv {n : Int64} (h : Twin (.integer n) w) : w = .integer n := by
  cases w with
  | integer n' => exact congrArg Value.integer (Eq.symm h)
  | _ => exact h.elim

/-- The twin of a floating point number is the same number, or both are no number. -/
theorem floating_inv {x : Binary64} (h : Twin (.floating x) w) :
    ∃ y, w = .floating y ∧ (x = y ∨ x.isNaN = true ∧ y.isNaN = true) := by
  cases w with
  | floating y => exact ⟨y, rfl, h⟩
  | _ => exact h.elim

/-- The twin of a string has the same bytes, and may be held in another way. -/
theorem string_inv {t : Text} (h : Twin (.string t) w) :
    ∃ t', w = .string t' ∧ t.bytes = t'.bytes := by
  cases w with
  | string t' => exact ⟨t', rfl, h⟩
  | _ => exact h.elim

/-- The twin of an array is an array of twins. -/
theorem array_inv {vs : List Value} (h : Twin (.array vs) w) :
    ∃ ws, w = .array ws ∧ TwinItems vs ws := by
  cases w with
  | array ws => exact ⟨ws, rfl, h⟩
  | _ => exact h.elim

/-- The twin of an object is an object of twins under the same keys. -/
theorem object_inv {ms : Members} (h : Twin (.object ms) w) :
    ∃ ns, w = .object ns ∧ TwinMembers ms ns := by
  cases w with
  | object ns => exact ⟨ns, rfl, h⟩
  | _ => exact h.elim

end Twin

theorem TwinItems.nil_inv {ws : List Value} (h : TwinItems [] ws) : ws = [] := by
  cases ws with
  | nil => rfl
  | cons w ws => exact h.elim

/-- Twins stand at the same places. -/
theorem TwinItems.cons_inv {v : Value} {vs ws : List Value} (h : TwinItems (v :: vs) ws) :
    ∃ w ws', ws = w :: ws' ∧ Twin v w ∧ TwinItems vs ws' := by
  cases ws with
  | nil => exact h.elim
  | cons w ws => exact ⟨w, ws, rfl, h⟩

theorem TwinMembers.nil_inv {ns : Members} (h : TwinMembers [] ns) : ns = [] := by
  cases ns with
  | nil => rfl
  | cons n ns => exact h.elim

/-- Members that are twins begin with twins, under keys of the same bytes. -/
theorem TwinMembers.cons_inv {m : Member} {ms ns : Members} (h : TwinMembers (m :: ms) ns) :
    ∃ n ns', ns = n :: ns' ∧ m.1.bytes = n.1.bytes ∧ Twin m.2 n.2 ∧ TwinMembers ms ns' := by
  cases ns with
  | nil => exact h.elim
  | cons n ns => exact ⟨n, ns, rfl, h⟩

/-- Twins have the same keys in the same order. -/
theorem TwinMembers.keys_eq {ms : Members} : ∀ {ns : Members}, TwinMembers ms ns →
    Members.keys ms = Members.keys ns := by
  induction ms with
  | nil =>
      intro ns h
      rw [h.nil_inv]
  | cons m ms ih =>
      intro ns h
      obtain ⟨n, ns, rfl, hkey, -, hms⟩ := h.cons_inv
      rw [Members.keys_cons, Members.keys_cons, hkey, ih hms]

/-- Every item of the second array is the twin of one of the first. -/
theorem TwinItems.exists_twin {vs : List Value} : ∀ {ws : List Value}, TwinItems vs ws →
    ∀ w ∈ ws, ∃ v ∈ vs, Twin v w := by
  induction vs with
  | nil =>
      intro ws h w hw
      rw [h.nil_inv] at hw
      cases hw
  | cons v vs ih =>
      intro ws h w hw
      obtain ⟨w', ws, rfl, hv, hvs⟩ := h.cons_inv
      rcases List.mem_cons.mp hw with rfl | hw
      · exact ⟨v, List.mem_cons_self, hv⟩
      · obtain ⟨u, hu, hu'⟩ := ih hvs w hw
        exact ⟨u, List.mem_cons_of_mem _ hu, hu'⟩

/-- Every member of the second object is the twin of one of the first, under the same key. -/
theorem TwinMembers.exists_twin {ms : Members} : ∀ {ns : Members}, TwinMembers ms ns →
    ∀ n ∈ ns, ∃ m ∈ ms, m.1.bytes = n.1.bytes ∧ Twin m.2 n.2 := by
  induction ms with
  | nil =>
      intro ns h n hn
      rw [h.nil_inv] at hn
      cases hn
  | cons m ms ih =>
      intro ns h n hn
      obtain ⟨n', ns, rfl, hkey, hm, hms⟩ := h.cons_inv
      rcases List.mem_cons.mp hn with rfl | hn
      · exact ⟨m, List.mem_cons_self, hkey, hm⟩
      · obtain ⟨u, hu, hu'⟩ := ih hms n hn
        exact ⟨u, List.mem_cons_of_mem _ hu, hu'⟩

/-- What twins share they share everywhere. -/
theorem Twin.everywhere (hp : ∀ {v w}, Twin v w → p v → p w) {v : Value} :
    ∀ {w : Value}, Twin v w → v.Everywhere p → w.Everywhere p := by
  induction v with
  | null | boolean _ | integer _ | floating _ | string _ =>
      intro w h hv
      have hw : w.IsScalar := by
        cases w with
        | array _ | object _ => exact h.elim
        | _ => trivial
      exact (everywhere_scalar hw).mpr (hp h hv.self)
  | array items ih =>
      intro w h hv
      obtain ⟨ws, rfl, hws⟩ := h.array_inv
      refine everywhere_array.mpr ⟨hp h hv.self, fun w hw => ?_⟩
      obtain ⟨v, hmem, htwin⟩ := hws.exists_twin w hw
      exact ih v hmem htwin ((everywhere_array.mp hv).2 v hmem)
  | object members ih =>
      intro w h hv
      obtain ⟨ns, rfl, hns⟩ := h.object_inv
      refine everywhere_object.mpr ⟨hp h hv.self, fun n hn => ?_⟩
      obtain ⟨m, hmem, -, htwin⟩ := hns.exists_twin n hn
      exact ih m hmem htwin ((everywhere_object.mp hv).2 m hmem)

/-- Only finite numbers are not excluded, in twins alike. -/
theorem Twin.allowed {allowNonFinite : Bool} {v w : Value} (h : Twin v w)
    (hv : Allowed allowNonFinite v) : Allowed allowNonFinite w := by
  cases v with
  | floating x =>
      obtain ⟨y, rfl, rfl | ⟨hx, -⟩⟩ := h.floating_inv
      · exact hv
      · rcases hv with hfinite | hallow
        · rw [Binary64.isFinite_of_isNaN hx] at hfinite
          cases hfinite
        · exact .inr hallow
  | _ =>
      cases w with
      | floating y => exact h.elim
      | _ => trivial

/-- Items that are twins are found equal, when their twins are. -/
theorem twinItems_equal {vs : List Value} (ih : ∀ v ∈ vs, ∀ w, Twin v w → w.equal v = true) :
    ∀ {ws : List Value}, TwinItems vs ws → equalItems ws vs = true := by
  induction vs with
  | nil =>
      intro ws h
      rw [h.nil_inv]
      rfl
  | cons v vs ihItems =>
      intro ws h
      obtain ⟨w, ws, rfl, hv, hvs⟩ := h.cons_inv
      rw [equalItems, ih v List.mem_cons_self w hv,
        ihItems (fun u hu => ih u (List.mem_cons_of_mem _ hu)) hvs]
      rfl

/-- Members that are twins are equal, as each key is looked up where its twin stands. -/
theorem twinMembers_equal {ms others : Members}
    (ih : ∀ m ∈ ms, ∀ w, Twin m.2 w → w.equal m.2 = true)
    (hfind : ∀ m ∈ ms, others.find? m.1.bytes = some m.2) :
    ∀ {ns : Members}, TwinMembers ms ns →
      ns.length = ms.length ∧ equalMembers ns others = true := by
  induction ms with
  | nil =>
      intro ns h
      rw [h.nil_inv]
      exact ⟨rfl, rfl⟩
  | cons m ms ihMembers =>
      intro ns h
      obtain ⟨n, ns, rfl, hkey, hv, hms⟩ := h.cons_inv
      obtain ⟨hlen, hequal⟩ := ihMembers (fun u hu => ih u (List.mem_cons_of_mem _ hu))
        (fun u hu => hfind u (List.mem_cons_of_mem _ hu)) hms
      refine ⟨congrArg (· + 1) hlen, ?_⟩
      have hm : others.find? n.1.bytes = some m.2 := by
        rw [← hkey]
        exact hfind m List.mem_cons_self
      rw [equalMembers, hm, hequal, Bool.and_true]
      exact ih m List.mem_cons_self n.2 hv

/-- **Twins are equal**, when there is no not-a-number. -/
theorem Twin.equal {v : Value} : ∀ {w : Value}, Twin v w → v.Everywhere Numeric →
    v.Everywhere Keyed → w.equal v = true := by
  induction v with
  | null =>
      intro w h _ _
      obtain rfl := h.null_inv
      rfl
  | boolean b =>
      intro w h _ _
      obtain rfl := h.boolean_inv
      exact beq_self_eq_true b
  | integer n =>
      intro w h _ _
      obtain rfl := h.integer_inv
      exact beq_self_eq_true n
  | floating x =>
      intro w h hnum _
      obtain ⟨y, rfl, rfl | ⟨hx', -⟩⟩ := h.floating_inv
      · have hx : x.isNaN = false := hnum.self
        simp [Value.equal, Binary64.sameNumber, hx]
      · rw [show x.isNaN = false from hnum.self] at hx'
        cases hx'
  | string t =>
      intro w h _ _
      obtain ⟨t', rfl, ht⟩ := h.string_inv
      exact beq_iff_eq.mpr ht.symm
  | array items ih =>
      intro w h hnum hkey
      obtain ⟨ws, rfl, h⟩ := h.array_inv
      have hnum' := (everywhere_array.mp hnum).2
      have hkey' := (everywhere_array.mp hkey).2
      exact twinItems_equal (fun v hv w h => ih v hv h (hnum' v hv) (hkey' v hv)) h
  | object members ih =>
      intro w h hnum hkey
      obtain ⟨ns, rfl, h⟩ := h.object_inv
      have hnum' := (everywhere_object.mp hnum).2
      -- a member is compared with the first of its key, which is the only one
      obtain ⟨hdistinct, hkey'⟩ := everywhere_object.mp hkey
      obtain ⟨hlen, hequal⟩ := twinMembers_equal
        (fun m hm w h => ih m hm h (hnum' m hm) (hkey' m hm))
        (fun m hm => Members.find?_of_mem hdistinct hm) h
      rw [Value.equal, hlen, beq_self_eq_true, hequal]
      rfl

end Value

end JsonTree
