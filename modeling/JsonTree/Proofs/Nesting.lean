import JsonTree.Build

/-!
# Nesting — the passes of the builder, and how many builds are under way

The loops over items and members are taken apart into their passes (`itemPass`, `memberPass`), with
an equation each that says how the loop is made of them.  How many builds of values are under way
at one time is told by a builder that counts them and answers the same besides (`nestedValue`).

* `nested_eq`: counting takes no part in building.
* `nested_extends`: more steps than suffice make no difference.
* `nesting_le`: over a bounded source, as many builds at most are under way as there are levels
  left, or as the measure says, and one.
-/

namespace JsonTree

namespace Build

variable {σ : Type}

/-! ### Passes -/

/-- One pass over an announced item: the item is built, and the array goes on; answers the item and
what comes next. -/
def itemPass (src : TokenSource σ) (limit steps : Nat) (kind : Kind) (depth : Nat)
    (s : Session σ) : Option ((Value × Option Kind) × Session σ) :=
  (value src limit steps kind depth s).map fun (v, s) =>
    if s.failed then ((v, none), s)
    else
      let (next, s) := src.nextItem s
      ((v, next), s)

/-- One pass over a member whose key has been read: what comes next is told and built, and the
object goes on; answers the value and the next key. -/
def memberPass (src : TokenSource σ) (limit steps : Nat) (depth : Nat) (s : Session σ) :
    Option ((Value × Option StringToken) × Session σ) :=
  let (kind, s) := src.peek s
  if s.failed then some ((.null, none), s)
  else
    (value src limit steps kind depth s).map fun (v, s) =>
      if s.failed then ((v, none), s)
      else
        let (next, s) := src.nextKey s
        ((v, next), s)

/-! ### The builder that counts -/

mutual

/-- Builds the announced value, and tells besides how many builds of values were under way at one
time at most, this one included. -/
def nestedValue (src : TokenSource σ) (limit : Nat) :
    (steps : Nat) → Kind → (depth : Nat) → Session σ → Option (Nat × Value × Session σ)
  | 0, _, _, _ => none
  | steps + 1, .array, depth, s =>
    if limit < depth + 1 then some (1, .null, fail src s .nestingTooDeep)
    else
      let (next, s) := src.openArray s
      if s.failed then some (1, .null, s)
      else (nestedItems src limit steps (depth + 1) [] next s).map fun (n, r) => (n + 1, r)
  | steps + 1, .object, depth, s =>
    if limit < depth + 1 then some (1, .null, fail src s .nestingTooDeep)
    else
      let (key, s) := src.openObject s
      if s.failed then some (1, .null, s)
      else (nestedMembers src limit steps (depth + 1) .empty key s).map fun (n, r) => (n + 1, r)
  | _ + 1, kind, _, s => some (1, scalar src kind s)

/-- Builds items, and tells how many builds of values were under way inside this one. -/
def nestedItems (src : TokenSource σ) (limit : Nat) :
    (steps : Nat) → (depth : Nat) → (done : List Value) → Option Kind → Session σ →
      Option (Nat × Value × Session σ)
  | 0, _, _, _, _ => none
  | _ + 1, _, done, none, s => some (0, .array done.reverse, s)
  | steps + 1, depth, done, some kind, s =>
    match nestedValue src limit steps kind depth s with
    | none => none
    | some (n, v, s) =>
      if s.failed then some (n, .null, s)
      else
        let (next, s) := src.nextItem s
        if s.failed then some (n, .null, s)
        else
          (nestedItems src limit steps depth (v :: done) next s).map fun (m, r) => (max n m, r)

/-- Builds members, and tells how many builds of values were under way inside this one. -/
def nestedMembers (src : TokenSource σ) (limit : Nat) :
    (steps : Nat) → (depth : Nat) → (done : KeyTable) → Option StringToken → Session σ →
      Option (Nat × Value × Session σ)
  | 0, _, _, _, _ => none
  | _ + 1, _, done, none, s => some (0, .object done.toMembers, s)
  | steps + 1, depth, done, some token, s =>
    let key := token.text (src.document s.state)
    let (kind, s) := src.peek s
    if s.failed then some (0, .null, s)
    else
      match nestedValue src limit steps kind depth s with
      | none => none
      | some (n, v, s) =>
        if s.failed then some (n, .null, s)
        else
          let (next, s) := src.nextKey s
          if s.failed then some (n, .null, s)
          else
            (nestedMembers src limit steps depth (done.insert key v) next s).map
              fun (m, r) => (max n m, r)

end

variable {src : TokenSource σ} {limit : Nat}

/-- The loop over items is a pass, and what it does behind that. -/
theorem items_succ_eq (steps depth : Nat) (done : List Value) (kind : Kind) (s : Session σ) :
    items src limit (steps + 1) depth done (some kind) s =
      (itemPass src limit steps kind depth s).bind fun ((v, next), s') =>
        if s'.failed then some (.null, s')
        else items src limit steps depth (v :: done) next s' := by
  rw [items, itemPass]
  rcases value src limit steps kind depth s with _ | ⟨v, s₁⟩
  · rfl
  · dsimp only [Option.map_some]
    cases hs₁ : s₁.failed with
    | true => simp [hs₁]
    | false => simp

/-- The loop over members is a pass, and what it does behind that. -/
theorem members_succ_eq (steps depth : Nat) (done : KeyTable) (token : StringToken)
    (s : Session σ) :
    members src limit (steps + 1) depth done (some token) s =
      (memberPass src limit steps depth s).bind fun ((v, next), s') =>
        if s'.failed then some (.null, s')
        else members src limit steps depth (done.insert (token.text (src.document s.state)) v)
          next s' := by
  rw [members, memberPass]
  dsimp only
  cases hp : (src.peek s).2.failed with
  | true => simp [hp]
  | false =>
      simp only [Bool.false_eq_true, ↓reduceIte]
      rcases value src limit steps (src.peek s).1 depth (src.peek s).2 with _ | ⟨v, s₁⟩
      · rfl
      · dsimp only [Option.map_some]
        cases hs₁ : s₁.failed with
        | true => simp [hs₁]
        | false => simp

/-- **Counting takes no part in building.** -/
theorem nested_eq (steps : Nat) :
    (∀ kind depth s, (nestedValue src limit steps kind depth s).map (·.2) =
      value src limit steps kind depth s) ∧
    (∀ depth done next s, (nestedItems src limit steps depth done next s).map (·.2) =
      items src limit steps depth done next s) ∧
    ∀ depth done next s, (nestedMembers src limit steps depth done next s).map (·.2) =
      members src limit steps depth done next s := by
  -- the two builders branch alike, so each branch is left with the count to forget
  induction steps with
  | zero => exact ⟨fun _ _ _ => rfl, fun _ _ _ _ => rfl, fun _ _ _ _ => rfl⟩
  | succ steps ih =>
      obtain ⟨ihValue, ihItems, ihMembers⟩ := ih
      refine ⟨fun kind depth s => ?_, fun depth done next s => ?_, fun depth done next s => ?_⟩
      · cases kind with
        | array =>
            rw [nestedValue, value]
            split
            · rfl
            dsimp only
            split
            · rfl
            · rw [Option.map_map, ← ihItems]
              rfl
        | object =>
            rw [nestedValue, value]
            split
            · rfl
            dsimp only
            split
            · rfl
            · rw [Option.map_map, ← ihMembers]
              rfl
        | _ => rfl
      · cases next with
        | none => rfl
        | some kind =>
            rw [nestedItems, items, ← ihValue]
            rcases nestedValue src limit steps kind depth s with _ | ⟨n, v, s₁⟩
            · rfl
            dsimp only [Option.map_some]
            split
            · rfl
            split
            · rfl
            · rw [Option.map_map, ← ihItems]
              rfl
      · cases next with
        | none => rfl
        | some token =>
            rw [nestedMembers, members]
            dsimp only
            split
            · rfl
            rw [← ihValue]
            rcases nestedValue src limit steps (src.peek s).1 depth (src.peek s).2 with
              _ | ⟨n, v, s₁⟩
            · rfl
            dsimp only [Option.map_some]
            split
            · rfl
            split
            · rfl
            · rw [Option.map_map, ← ihMembers]
              rfl

/-! ### More steps -/

/-- Whatever the first answers, the second answers too. -/
def Extends {α : Type} (x y : Option α) : Prop :=
  ∀ r, x = some r → y = some r

namespace Extends

variable {α β : Type} {x y : Option α}

theorem refl (x : Option α) : Extends x x :=
  fun _ => id

theorem none : Extends Option.none y :=
  fun _ h => nomatch h

theorem map (h : Extends x y) (f : α → β) : Extends (x.map f) (y.map f) := by
  intro r hr
  obtain ⟨a, ha, rfl⟩ := Option.map_eq_some_iff.mp hr
  rw [h a ha]
  rfl

/-- Both stop at the same test, or both go on. -/
theorem orStop {c : Prop} [Decidable c] {stop : Option α} (h : Extends x y) :
    Extends (if c then stop else x) (if c then stop else y) := by
  split
  · exact refl _
  · exact h

end Extends

/-- **More steps than suffice make no difference.** -/
theorem nested_extends (m : Nat) :
    (∀ n kind depth s, m ≤ n → Extends (nestedValue src limit m kind depth s)
      (nestedValue src limit n kind depth s)) ∧
    (∀ n depth done next s, m ≤ n → Extends (nestedItems src limit m depth done next s)
      (nestedItems src limit n depth done next s)) ∧
    ∀ n depth done next s, m ≤ n → Extends (nestedMembers src limit m depth done next s)
      (nestedMembers src limit n depth done next s) := by
  induction m with
  | zero => exact ⟨fun _ _ _ _ _ => .none, fun _ _ _ _ _ _ => .none, fun _ _ _ _ _ _ => .none⟩
  | succ m ih =>
      obtain ⟨ihValue, ihItems, ihMembers⟩ := ih
      refine ⟨?_, ?_, ?_⟩
      · rintro (_ | n) kind depth s hle
        · cases hle
        have hle' : m ≤ n := Nat.le_of_succ_le_succ hle
        cases kind with
        | array =>
            rw [nestedValue, nestedValue]
            exact .orStop (.orStop ((ihItems n _ _ _ _ hle').map _))
        | object =>
            rw [nestedValue, nestedValue]
            exact .orStop (.orStop ((ihMembers n _ _ _ _ hle').map _))
        | _ => exact .refl _
      · rintro (_ | n) depth done next s hle
        · cases hle
        have hle' : m ≤ n := Nat.le_of_succ_le_succ hle
        cases next with
        | none => exact .refl _
        | some kind =>
            rw [nestedItems, nestedItems]
            cases hv : nestedValue src limit m kind depth s with
            | none => exact .none
            | some found =>
                rw [ihValue n _ _ _ hle' _ hv]
                exact .orStop (.orStop ((ihItems n _ _ _ _ hle').map _))
      · rintro (_ | n) depth done next s hle
        · cases hle
        have hle' : m ≤ n := Nat.le_of_succ_le_succ hle
        cases next with
        | none => exact .refl _
        | some token =>
            rw [nestedMembers, nestedMembers]
            refine .orStop ?_
            dsimp only
            cases hv : nestedValue src limit m (src.peek s).1 depth (src.peek s).2 with
            | none => exact .none
            | some found =>
                rw [ihValue n _ _ _ hle' _ hv]
                exact .orStop (.orStop ((ihMembers n _ _ _ _ hle').map _))

/-! ### How many builds are under way -/

variable {measure : σ → Nat}

/-- No more builds are under way than there are levels left, or than the measure says, and one; and
the measure has not grown. -/
def Bounds (limit : Nat) (measure : σ → Nat) (depth : Nat) (s : Session σ)
    (r : Nat × Value × Session σ) : Prop :=
  r.1 ≤ min (limit - depth) (measure s.state) + 1 ∧ measure r.2.2.state ≤ measure s.state

namespace Bounds

variable {depth : Nat} {s s₁ : Session σ} {r : Nat × Value × Session σ}

/-- A measure that does not grow stays a bound. -/
theorem before (hle : measure s₁.state ≤ measure s.state) (h : Bounds limit measure depth s₁ r) :
    Bounds limit measure depth s r := by
  obtain ⟨hn, hm⟩ := h
  exact ⟨by omega, Nat.le_trans hm hle⟩

/-- One item and the others behind it are under way at different times. -/
theorem max {n k : Nat} {r' : Value × Session σ} (h : Bounds limit measure depth s (n, r'))
    {r : Value × Session σ} (h' : Bounds limit measure depth s (k, r)) :
    Bounds limit measure depth s (Max.max n k, r) :=
  ⟨Nat.max_le.mpr ⟨h.1, h'.1⟩, h'.2⟩

/-- Inside an array or object there is a level less, and the measure is less, unless nothing is
inside. -/
theorem opened (h : Bounds limit measure (depth + 1) s₁ r) (hd : depth + 1 ≤ limit)
    (hle : measure s₁.state ≤ measure s.state)
    (hlt : r.1 = 0 ∨ measure s₁.state < measure s.state) :
    Bounds limit measure depth s (r.1 + 1, r.2) := by
  obtain ⟨hn, hm⟩ := h
  refine ⟨?_, Nat.le_trans hm hle⟩
  dsimp only
  omega

/-- A value with nothing under way inside it. -/
theorem alone {v : Value} (h : measure s₁.state ≤ measure s.state) :
    Bounds limit measure depth s (1, v, s₁) :=
  ⟨Nat.le_add_left 1 _, h⟩

/-- An array or object is bounded when what is inside is; nothing is, if nothing comes next. -/
theorem of_inside {α : Type} {next : Option α} {refused : Session σ}
    {inside : Option (Nat × Value × Session σ)}
    (h : (if limit < depth + 1 then some (1, .null, refused)
      else if s₁.failed then some (1, .null, s₁)
      else inside.map fun (n, r) => (n + 1, r)) = some r)
    (hrefused : measure refused.state ≤ measure s.state)
    (hle : measure s₁.state ≤ measure s.state)
    (hlt : next.isSome = true → measure s₁.state < measure s.state)
    (ih : ∀ r, inside = some r → depth + 1 ≤ limit →
      Bounds limit measure (depth + 1) s₁ r ∧ (next = none → r.1 = 0)) :
    Bounds limit measure depth s r := by
  split at h
  · cases h
    exact alone hrefused
  next hd =>
    split at h
    · cases h
      exact alone hle
    · obtain ⟨r', hr', rfl⟩ := Option.map_eq_some_iff.mp h
      obtain ⟨hinside, hempty⟩ := ih r' hr' (Nat.le_of_not_lt hd)
      refine hinside.opened (Nat.le_of_not_lt hd) hle ?_
      cases next with
      | none => exact .inl (hempty rfl)
      | some a => exact .inr (hlt rfl)

/-- A loop is bounded when the value of its first pass is, and the passes behind it. -/
theorem of_pass {α : Type} {first : Option (Nat × Value × Session σ)}
    {next : Session σ → α × Session σ}
    {others : Value → α → Session σ → Option (Nat × Value × Session σ)}
    (h : (match first with
      | none => none
      | some (n, v, s) =>
        if s.failed then some (n, .null, s)
        else
          let (a, s) := next s
          if s.failed then some (n, .null, s)
          else (others v a s).map fun (m, r) => (Max.max n m, r)) = some r)
    (hnext : ∀ s, measure (next s).2.state ≤ measure s.state)
    (ihFirst : ∀ r, first = some r → Bounds limit measure depth s r)
    (ihOthers : ∀ v a s r, others v a s = some r → Bounds limit measure depth s r) :
    Bounds limit measure depth s r := by
  rcases first with _ | ⟨n, v, s₁⟩
  · cases h
  have hfirst := ihFirst _ rfl
  have hle := Nat.le_trans (hnext s₁) hfirst.2
  dsimp only at h
  split at h
  · cases h
    exact hfirst
  split at h
  · cases h
    exact ⟨hfirst.1, hle⟩
  · obtain ⟨r', hr', rfl⟩ := Option.map_eq_some_iff.mp h
    exact hfirst.max ((ihOthers _ _ _ _ hr').before hle)

end Bounds

/-- **As many builds at most are under way as there are levels left, or as the measure says, and
one.** -/
theorem nesting_le (bounded : src.Bounded measure) (steps : Nat) :
    (∀ kind depth s r, nestedValue src limit steps kind depth s = some r → depth ≤ limit →
      Bounds limit measure depth s r) ∧
    (∀ depth done next s r, nestedItems src limit steps depth done next s = some r →
      depth ≤ limit → Bounds limit measure depth s r ∧ (next = none → r.1 = 0)) ∧
    ∀ depth done next s r, nestedMembers src limit steps depth done next s = some r →
      depth ≤ limit → Bounds limit measure depth s r ∧ (next = none → r.1 = 0) := by
  -- on the steps; a run that spends them all answers nothing
  induction steps with
  | zero => exact ⟨(fun _ _ _ _ h => nomatch h), (fun _ _ _ _ _ h => nomatch h),
      (fun _ _ _ _ _ h => nomatch h)⟩
  | succ steps ih =>
      obtain ⟨ihValue, ihItems, ihMembers⟩ := ih
      refine ⟨?_, ?_, ?_⟩
      · intro kind depth s r h hd
        by_cases ha : kind = .array
        · subst ha
          rw [nestedValue] at h
          exact .of_inside h (Nat.le_refl _) (bounded.openArray s) (bounded.openArray_lt s)
            fun r' hr' => ihItems _ _ _ _ r' hr'
        by_cases ho : kind = .object
        · subst ho
          rw [nestedValue] at h
          exact .of_inside h (Nat.le_refl _) (bounded.openObject s) (bounded.openObject_lt s)
            fun r' hr' => ihMembers _ _ _ _ r' hr'
        · have hscalar : nestedValue src limit (steps + 1) kind depth s =
              some (1, scalar src kind s) := by
            cases kind <;> first | rfl | contradiction
          rw [hscalar] at h
          cases h
          exact .alone (scalar_le bounded kind s)
      · intro depth done next s r h hd
        cases next with
        | none =>
            cases h
            exact ⟨⟨Nat.zero_le _, Nat.le_refl _⟩, fun _ => rfl⟩
        | some kind =>
            refine ⟨?_, fun hnone => nomatch hnone⟩
            rw [nestedItems] at h
            exact .of_pass h bounded.nextItem (fun r' hr' => ihValue _ _ _ r' hr' hd)
              fun v next' s' r' hr' => (ihItems _ _ next' s' r' hr' hd).1
      · intro depth done next s r h hd
        cases next with
        | none =>
            cases h
            exact ⟨⟨Nat.zero_le _, Nat.le_refl _⟩, fun _ => rfl⟩
        | some token =>
            refine ⟨?_, fun hnone => nomatch hnone⟩
            have hp := bounded.peek s
            rw [nestedMembers] at h
            dsimp only at h
            split at h
            · cases h
              exact ⟨Nat.zero_le _, hp⟩
            · refine .before hp (.of_pass h bounded.nextKey
                (fun r' hr' => ihValue _ _ _ r' hr' hd) ?_)
              exact fun v next' s' r' hr' => (ihMembers _ _ next' s' r' hr' hd).1

end Build

end JsonTree
