import JsonTree.Token
import JsonTree.Value.Table

/-!
# Building a value from tokens

The builder asks a token source for one token after the other and puts the value together.  It
stops at the first error, its own or the source's, without asking for anything more, and then
answers null.  An array or object deeper than the limit is an error before it is opened.

The definitions by recursion take an allowance of steps, since a source need not come to an end;
`none` says that it did not suffice.  For a bounded source the allowance can be computed
(`next?_isSome`), and `TokenSource.Bounded.build` needs none.
-/

namespace JsonTree

namespace Build

variable {σ : Type}

/-- Records an error at the position of the source. -/
def fail (src : TokenSource σ) (s : Session σ) (code : ErrorCode) : Session σ :=
  s.fail (src.document s.state) code (src.position s.state)

/-- The value, or null when an error has been recorded. -/
def settle (v : Value) (s : Session σ) : Value × Session σ :=
  (if s.failed then .null else v, s)

/-- Builds a number: an integer if it is one, a floating point number otherwise. -/
def number (src : TokenSource σ) (s : Session σ) : Value × Session σ :=
  let (token, s) := src.readInteger s
  if s.failed then (.null, s)
  else
    match token with
    | .value n => (.integer n, s)
    | .tooLarge => (.null, fail src s .integerTooLarge)
    | .notInteger =>
      let (x, s) := src.readFloat s
      settle (.floating x) s

/-- Builds a value that is neither an array nor an object. -/
def scalar (src : TokenSource σ) (kind : Kind) (s : Session σ) : Value × Session σ :=
  match kind with
  | .null => (.null, src.readNull s)
  | .true | .false =>
    let (b, s) := src.readBool kind s
    settle (.boolean b) s
  | .string =>
    let (t, s) := src.readString s
    settle (.string (t.text (src.document s.state))) s
  | .number => number src s
  | .infinity | .nan =>
    let (x, s) := src.readFloat s
    settle (.floating x) s
  | .minus => (.null, fail src s .unresolvedMinus)
  | _ => (.null, fail src s .unsupportedToken)

mutual

/-- Builds the announced value at a depth, with an allowance of steps. -/
def value (src : TokenSource σ) (limit : Nat) :
    (steps : Nat) → Kind → (depth : Nat) → Session σ → Option (Value × Session σ)
  | 0, _, _, _ => none
  | steps + 1, .array, depth, s =>
    if limit < depth + 1 then some (.null, fail src s .nestingTooDeep)
    else
      let (next, s) := src.openArray s
      if s.failed then some (.null, s) else items src limit steps (depth + 1) [] next s
  | steps + 1, .object, depth, s =>
    if limit < depth + 1 then some (.null, fail src s .nestingTooDeep)
    else
      let (key, s) := src.openObject s
      if s.failed then some (.null, s) else members src limit steps (depth + 1) .empty key s
  | _ + 1, kind, _, s => some (scalar src kind s)

/-- Builds the items of an array from an announced one on; `done` are those before it, the last
one first. -/
def items (src : TokenSource σ) (limit : Nat) :
    (steps : Nat) → (depth : Nat) → (done : List Value) → Option Kind → Session σ →
      Option (Value × Session σ)
  | 0, _, _, _, _ => none
  | _ + 1, _, done, none, s => some (.array done.reverse, s)
  | steps + 1, depth, done, some kind, s =>
    match value src limit steps kind depth s with
    | none => none
    | some (v, s) =>
      if s.failed then some (.null, s)
      else
        let (next, s) := src.nextItem s
        if s.failed then some (.null, s)
        else items src limit steps depth (v :: done) next s

/-- Builds the members of an object from one whose key has been read on; `done` are those before
it. -/
def members (src : TokenSource σ) (limit : Nat) :
    (steps : Nat) → (depth : Nat) → (done : KeyTable) → Option StringToken → Session σ →
      Option (Value × Session σ)
  | 0, _, _, _, _ => none
  | _ + 1, _, done, none, s => some (.object done.toMembers, s)
  | steps + 1, depth, done, some token, s =>
    let key := token.text (src.document s.state)
    let (kind, s) := src.peek s
    if s.failed then some (.null, s)
    else
      match value src limit steps kind depth s with
      | none => none
      | some (v, s) =>
        if s.failed then some (.null, s)
        else
          let (next, s) := src.nextKey s
          if s.failed then some (.null, s)
          else members src limit steps depth (done.insert key v) next s

end

/-! ### Enough steps for a bounded source -/

variable {src : TokenSource σ} {measure : σ → Nat}

/-- Building a number leaves no more of the source than there was. -/
theorem number_le (bounded : src.Bounded measure) (s : Session σ) :
    measure (number src s).2.state ≤ measure s.state := by
  have hi := bounded.readInteger s
  unfold number
  dsimp only
  split
  · exact hi
  · split
    · exact hi
    · exact hi
    · exact Nat.le_trans (bounded.readFloat _) hi

/-- Building a scalar leaves no more of the source than there was. -/
theorem scalar_le (bounded : src.Bounded measure) (kind : Kind) (s : Session σ) :
    measure (scalar src kind s).2.state ≤ measure s.state := by
  cases kind with
  | null => exact bounded.readNull s
  | true => exact bounded.readBool .true s
  | false => exact bounded.readBool .false s
  | number => exact number_le bounded s
  | infinity => exact bounded.readFloat s
  | nan => exact bounded.readFloat s
  | string => exact bounded.readString s
  | minus | array | object | other => exact Nat.le_refl _

/-- With steps enough for the measure every builder answers, and the measure has not grown. -/
theorem answers (bounded : src.Bounded measure) (limit steps : Nat) :
    (∀ kind depth s, 2 * measure s.state + 2 ≤ steps →
      ∃ r, value src limit steps kind depth s = some r ∧
        measure r.2.state ≤ measure s.state) ∧
    (∀ depth done (next : Option Kind) s, 1 ≤ steps →
      (next.isSome → 2 * measure s.state + 3 ≤ steps) →
      ∃ r, items src limit steps depth done next s = some r ∧
        measure r.2.state ≤ measure s.state) ∧
    (∀ depth done (next : Option StringToken) s, 1 ≤ steps →
      (next.isSome → 2 * measure s.state + 3 ≤ steps) →
      ∃ r, members src limit steps depth done next s = some r ∧
        measure r.2.state ≤ measure s.state) := by
  -- on the steps, with the three builders at once: each item and each key takes two of them, one for
  -- the loop and one for the value, and uses up a unit of the measure
  induction steps with
  | zero => exact ⟨fun _ _ _ h => absurd h (by omega), fun _ _ _ _ h => absurd h (by omega),
      fun _ _ _ _ h => absurd h (by omega)⟩
  | succ steps ih =>
    obtain ⟨ihValue, ihItems, ihMembers⟩ := ih
    refine ⟨fun kind depth s h => ?_, fun depth done next s _ h => ?_,
      fun depth done next s _ h => ?_⟩
    · have plain : ∃ r, some (scalar src kind s) = some r ∧
          measure r.2.state ≤ measure s.state :=
        ⟨_, rfl, scalar_le bounded kind s⟩
      cases kind with
      | array =>
        have hle := bounded.openArray s
        have hlt := bounded.openArray_lt s
        unfold value
        dsimp only
        split
        · exact ⟨_, rfl, Nat.le_refl _⟩
        split
        · exact ⟨_, rfl, hle⟩
        · obtain ⟨r, hr, hm⟩ := ihItems (depth + 1) [] _ (src.openArray s).2 (by omega)
            (fun hs => by have := hlt hs; omega)
          exact ⟨r, hr, Nat.le_trans hm hle⟩
      | object =>
        have hle := bounded.openObject s
        have hlt := bounded.openObject_lt s
        unfold value
        dsimp only
        split
        · exact ⟨_, rfl, Nat.le_refl _⟩
        split
        · exact ⟨_, rfl, hle⟩
        · obtain ⟨r, hr, hm⟩ := ihMembers (depth + 1) .empty _ (src.openObject s).2 (by omega)
            (fun hs => by have := hlt hs; omega)
          exact ⟨r, hr, Nat.le_trans hm hle⟩
      | null | true | false | number | minus | infinity | nan | string | other =>
        simpa only [value] using plain
    · cases next with
      | none => exact ⟨_, rfl, Nat.le_refl _⟩
      | some kind =>
        have hs := h rfl
        obtain ⟨⟨v, s'⟩, hv, hm⟩ := ihValue kind depth s (by omega)
        have hle := bounded.nextItem s'
        have hlt := bounded.nextItem_lt s'
        unfold items
        simp only [hv]
        split
        · exact ⟨_, rfl, hm⟩
        split
        · exact ⟨_, rfl, Nat.le_trans hle hm⟩
        · obtain ⟨r, hr, hm'⟩ := ihItems depth (v :: done) _ (src.nextItem s').2 (by omega)
            (fun hs => by have := hlt hs; dsimp only at hm; omega)
          exact ⟨r, hr, Nat.le_trans hm' (Nat.le_trans hle hm)⟩
    · cases next with
      | none => exact ⟨_, rfl, Nat.le_refl _⟩
      | some token =>
        have hs := h rfl
        have hp := bounded.peek s
        obtain ⟨⟨v, s'⟩, hv, hm⟩ := ihValue (src.peek s).1 depth (src.peek s).2 (by omega)
        have hle := bounded.nextKey s'
        have hlt := bounded.nextKey_lt s'
        unfold members
        dsimp only
        split
        · exact ⟨_, rfl, hp⟩
        simp only [hv]
        dsimp only at hm
        split
        · exact ⟨_, rfl, Nat.le_trans hm hp⟩
        split
        · exact ⟨_, rfl, Nat.le_trans hle (Nat.le_trans hm hp)⟩
        · obtain ⟨r, hr, hm'⟩ := ihMembers depth
            (done.insert (token.text (src.document s.state)) v) _ (src.nextKey s').2 (by omega)
            (fun hs => by have := hlt hs; omega)
          exact ⟨r, hr, Nat.le_trans hm' (Nat.le_trans hle (Nat.le_trans hm hp))⟩

/-- A bounded source is read to an end in this many steps. -/
theorem value_isSome (bounded : src.Bounded measure) (limit : Nat) (kind : Kind) (depth : Nat)
    (s : Session σ) {steps : Nat} (h : 2 * measure s.state + 2 ≤ steps) :
    (value src limit steps kind depth s).isSome := by
  obtain ⟨r, hr, _⟩ := (answers bounded limit steps).1 kind depth s h
  rw [hr]
  rfl

/-! ### Whole values -/

/-- Builds the value that has been announced as the given kind, with an allowance of steps; null
when an error is recorded. -/
def announced? (src : TokenSource σ) (limit steps : Nat) (kind : Kind) (s : Session σ) :
    Option (Value × Session σ) :=
  (value src limit steps kind 0 s).map fun (v, s) => settle v s

/-- Builds the value that comes next, with an allowance of steps; null when an error is
recorded. -/
def next? (src : TokenSource σ) (limit steps : Nat) (s : Session σ) :
    Option (Value × Session σ) :=
  let (kind, s) := src.peek s
  if s.failed then some (.null, s) else announced? src limit steps kind s

/-- Two steps for each unit of the measure, and two more, are enough for an announced value. -/
theorem announced?_isSome (bounded : src.Bounded measure) (limit : Nat) (kind : Kind)
    (s : Session σ) {steps : Nat} (h : 2 * measure s.state + 2 ≤ steps) :
    (announced? src limit steps kind s).isSome := by
  simpa [announced?] using value_isSome bounded limit kind 0 s h

/-- Telling the kind first takes no further steps. -/
theorem next?_isSome (bounded : src.Bounded measure) (limit : Nat) (s : Session σ) {steps : Nat}
    (h : 2 * measure s.state + 2 ≤ steps) : (next? src limit steps s).isSome := by
  have hp := bounded.peek s
  unfold next?
  dsimp only
  split
  · rfl
  · exact announced?_isSome bounded limit _ _
      (Nat.le_trans (Nat.add_le_add_right (Nat.mul_le_mul_left 2 hp) 2) h)

end Build

namespace TokenSource.Bounded

variable {σ : Type} {src : TokenSource σ} {measure : σ → Nat}

/-- An allowance of steps that suffices for every value. -/
def steps (_ : src.Bounded measure) (s : Session σ) : Nat :=
  2 * measure s.state + 2

/-- Builds the value that has been announced as the given kind; null when an error is recorded. -/
def buildAnnounced (bounded : src.Bounded measure) (limit : Nat) (kind : Kind) (s : Session σ) :
    Value × Session σ :=
  (Build.announced? src limit (bounded.steps s) kind s).get
    (Build.announced?_isSome bounded limit kind s (Nat.le_refl _))

/-- Builds the value that comes next; null when an error is recorded. -/
def build (bounded : src.Bounded measure) (limit : Nat) (s : Session σ) : Value × Session σ :=
  (Build.next? src limit (bounded.steps s) s).get
    (Build.next?_isSome bounded limit s (Nat.le_refl _))

end TokenSource.Bounded

end JsonTree
