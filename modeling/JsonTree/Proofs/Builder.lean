import JsonTree.Proofs.Nesting
import JsonTree.Proofs.Table

/-!
# The builder — the tree is what the source hands out

`Hands src part depth s s'` says that a source hands out a part of a document without an error: a
value, the items that are left of an array or the members that are left of an object.  Every rule is
one token and what must come behind it, and `depth` is how deep arrays and objects are nested in the
part.

* `hands_of_answer`: what is built without an error is what the source has handed out, all of it,
  and is not nested beyond the limit.
* `answer_extends`: an answer is not changed by allowing more steps.
* `Hands.settles`: what the source hands out is built with steps enough, when it is not nested
  beyond the limit; so it is the only answer (`Hands.builds`).
* `build_eq_iff`: both, for a source that comes to an end.
-/

namespace JsonTree

namespace Build

variable {σ : Type}

/-- A part of a document that a source is about to hand out. -/
inductive Part where
  /-- The value that has been announced. -/
  | value (kind : Kind) (v : Value)
  /-- The items from an announced one on, or none behind the last. -/
  | items (next : Option Kind) (vs : List Value)
  /-- The members from one whose key has been read on, or none behind the last. -/
  | members (next : Option StringToken) (ms : List Member)

/-- The source hands out the part, nested to the depth, and records no error. -/
inductive Hands (src : TokenSource σ) : Part → Nat → Session σ → Session σ → Prop where
  | null {s s' : Session σ} : src.readNull s = s' → s'.failed = false →
      Hands src (.value .null .null) 0 s s'
  | boolean {s s' : Session σ} {kind : Kind} {b : Bool} : kind = .true ∨ kind = .false →
      src.readBool kind s = (b, s') → s'.failed = false →
      Hands src (.value kind (.boolean b)) 0 s s'
  | string {s s' : Session σ} {t : StringToken} : src.readString s = (t, s') → s'.failed = false →
      Hands src (.value .string (.string (t.text (src.document s'.state)))) 0 s s'
  | integer {s s' : Session σ} {n : Int64} : src.readInteger s = (.value n, s') →
      s'.failed = false → Hands src (.value .number (.integer n)) 0 s s'
  | floating {s s₁ s' : Session σ} {x : Binary64} : src.readInteger s = (.notInteger, s₁) →
      s₁.failed = false → src.readFloat s₁ = (x, s') → s'.failed = false →
      Hands src (.value .number (.floating x)) 0 s s'
  | nonFinite {s s' : Session σ} {kind : Kind} {x : Binary64} : kind = .infinity ∨ kind = .nan →
      src.readFloat s = (x, s') → s'.failed = false →
      Hands src (.value kind (.floating x)) 0 s s'
  | array {s s₁ s' : Session σ} {next : Option Kind} {vs : List Value} {depth : Nat} :
      src.openArray s = (next, s₁) → s₁.failed = false → Hands src (.items next vs) depth s₁ s' →
      Hands src (.value .array (.array vs)) (depth + 1) s s'
  | object {s s₁ s' : Session σ} {next : Option StringToken} {ms : List Member} {depth : Nat} :
      src.openObject s = (next, s₁) → s₁.failed = false →
      Hands src (.members next ms) depth s₁ s' →
      Hands src (.value .object (.object (Members.ofList ms))) (depth + 1) s s'
  | itemsEnd (s : Session σ) : Hands src (.items none []) 0 s s
  | item {s s₁ s₂ s' : Session σ} {kind : Kind} {v : Value} {next : Option Kind}
      {vs : List Value} {d d' : Nat} : Hands src (.value kind v) d s s₁ →
      src.nextItem s₁ = (next, s₂) → s₂.failed = false → Hands src (.items next vs) d' s₂ s' →
      Hands src (.items (some kind) (v :: vs)) (max d d') s s'
  | membersEnd (s : Session σ) : Hands src (.members none []) 0 s s
  | member {s s₁ s₂ s₃ s' : Session σ} {token : StringToken} {kind : Kind} {v : Value}
      {next : Option StringToken} {ms : List Member} {d d' : Nat} : src.peek s = (kind, s₁) →
      s₁.failed = false → Hands src (.value kind v) d s₁ s₂ → src.nextKey s₂ = (next, s₃) →
      s₃.failed = false → Hands src (.members next ms) d' s₃ s' →
      Hands src (.members (some token) ((token.text (src.document s.state), v) :: ms))
        (max d d') s s'

/-! ### What is built has been handed out -/

/-- No error is recorded on the way. -/
theorem Hands.failed_eq {src : TokenSource σ} {part : Part} {depth : Nat} {s s' : Session σ}
    (h : Hands src part depth s s') : s.failed = false → s'.failed = false := by
  induction h with
  | null _ hs => exact fun _ => hs
  | boolean _ _ hs => exact fun _ => hs
  | string _ hs => exact fun _ => hs
  | integer _ hs => exact fun _ => hs
  | floating _ _ _ hs => exact fun _ => hs
  | nonFinite _ _ hs => exact fun _ => hs
  | array _ hs _ ih | object _ hs _ ih => exact fun _ => ih hs
  | itemsEnd s | membersEnd s => exact id
  | item _ _ hs _ _ ih => exact fun _ => ih hs
  | member _ _ _ _ hs _ _ ih => exact fun _ => ih hs

/-- A value that is handed out leaves no error. -/
theorem Hands.value_ends {src : TokenSource σ} {kind : Kind} {v : Value} {depth : Nat}
    {s s' : Session σ} (h : Hands src (.value kind v) depth s s') : s'.failed = false := by
  cases h with
  | null _ hs => exact hs
  | boolean _ _ hs => exact hs
  | string _ hs => exact hs
  | integer _ hs => exact hs
  | floating _ _ _ hs => exact hs
  | nonFinite _ _ hs => exact hs
  | array _ hs h => exact h.failed_eq hs
  | object _ hs h => exact h.failed_eq hs

theorem failed_fail (src : TokenSource σ) (s : Session σ) (code : ErrorCode) :
    (fail src s code).failed = true := by
  rw [fail, Session.fail, Session.failed]
  exact Fault.isSome_record _ _ _ _

/-- What has been settled without an error is what was there. -/
theorem settle_eq {v v' : Value} {s s' : Session σ} (h : settle v s = (v', s'))
    (hs : s'.failed = false) : v = v' ∧ s = s' := by
  obtain ⟨rfl, rfl⟩ := Prod.mk.inj h
  rw [if_neg (by simp [hs])]
  exact ⟨rfl, rfl⟩

variable {src : TokenSource σ} {limit : Nat}

/-- A number that is built without an error is handed out. -/
theorem hands_of_number {s s' : Session σ} {v : Value} (h : number src s = (v, s'))
    (hs : s'.failed = false) : Hands src (.value .number v) 0 s s' := by
  rw [number] at h
  rcases hi : src.readInteger s with ⟨token, s₁⟩
  rw [hi] at h
  dsimp only at h
  split at h
  · next hf => exact absurd h (Session.ne_of_failed hf hs)
  next hf =>
    rw [Bool.not_eq_true] at hf
    cases token with
    | value n =>
        obtain ⟨rfl, rfl⟩ := Prod.mk.inj h
        exact .integer hi hs
    | tooLarge => exact absurd h (Session.ne_of_failed (failed_fail _ _ _) hs)
    | notInteger =>
        obtain ⟨rfl, rfl⟩ := settle_eq h hs
        exact .floating hi hf rfl hs

/-- A scalar that is built without an error is handed out. -/
theorem hands_of_scalar {kind : Kind} {s s' : Session σ} {v : Value}
    (h : scalar src kind s = (v, s')) (hs : s'.failed = false) :
    Hands src (.value kind v) 0 s s' := by
  have fails : ∀ {code : ErrorCode}, (Value.null, fail src s code) = (v, s') →
      Hands src (.value kind v) 0 s s' := by
    intro code hc
    exact absurd hc (Session.ne_of_failed (failed_fail _ _ _) hs)
  cases kind with
  | null =>
      obtain ⟨rfl, rfl⟩ := Prod.mk.inj h
      exact .null rfl hs
  | true | false =>
      obtain ⟨rfl, rfl⟩ := settle_eq h hs
      exact .boolean (by decide) rfl hs
  | string =>
      obtain ⟨rfl, rfl⟩ := settle_eq h hs
      exact .string rfl hs
  | number => exact hands_of_number h hs
  | infinity | nan =>
      obtain ⟨rfl, rfl⟩ := settle_eq h hs
      exact .nonFinite (by decide) rfl hs
  | minus | array | object | other => exact fails h

theorem value_scalar {kind : Kind} (ha : kind ≠ .array) (ho : kind ≠ .object) (steps depth : Nat)
    (s : Session σ) : value src limit (steps + 1) kind depth s = some (scalar src kind s) := by
  cases kind with
  | array => exact absurd rfl ha
  | object => exact absurd rfl ho
  | _ => rfl

/-- Going on is possible only when no error has been recorded. -/
theorem of_unless_failed {s s' : Session σ} {v : Value} {rest : Option (Value × Session σ)}
    (h : (if s.failed then some (.null, s) else rest) = some (v, s')) (hs : s'.failed = false) :
    s.failed = false ∧ rest = some (v, s') := by
  split at h
  · next hf =>
      exact absurd (Option.some.inj h) (Session.ne_of_failed hf hs)
  · next hf => exact ⟨by simpa using hf, h⟩

/-- An array or object is opened only when the limit allows for it. -/
theorem of_within_limit {depth : Nat} {s s' : Session σ} {v : Value}
    {rest : Option (Value × Session σ)}
    (h : (if limit < depth + 1 then some (.null, fail src s .nestingTooDeep) else rest) =
      some (v, s')) (hs : s'.failed = false) : depth + 1 ≤ limit ∧ rest = some (v, s') := by
  split at h
  · exact absurd (Option.some.inj h) (Session.ne_of_failed (failed_fail _ _ _) hs)
  · exact ⟨by omega, h⟩

/-- **What is built has been handed out.**  Without an error, the value is that of the tokens handed
out, and the arrays and objects among them are not nested beyond the limit. -/
theorem hands_of_answer (steps : Nat) :
    (∀ {kind depth s v s'}, value src limit steps kind depth s = some (v, s') →
      s'.failed = false → depth ≤ limit →
      ∃ d, Hands src (.value kind v) d s s' ∧ depth + d ≤ limit) ∧
    (∀ {depth done next s v s'}, items src limit steps depth done next s = some (v, s') →
      s'.failed = false → depth ≤ limit →
      ∃ vs d, v = .array (done.reverse ++ vs) ∧ Hands src (.items next vs) d s s' ∧
        depth + d ≤ limit) ∧
    ∀ {depth done next s v s'}, members src limit steps depth done next s = some (v, s') →
      s'.failed = false → depth ≤ limit → done.Sound →
      ∃ ms d, v = .object (done.toMembers.insertAll ms) ∧ Hands src (.members next ms) d s s' ∧
        depth + d ≤ limit := by
  -- on the steps allowed; a run that spends them all answers nothing
  induction steps with
  | zero => exact ⟨(fun h => nomatch h), (fun h => nomatch h), (fun h => nomatch h)⟩
  | succ steps ih =>
      obtain ⟨ihValue, ihItems, ihMembers⟩ := ih
      refine ⟨?_, ?_, ?_⟩
      · intro kind depth s v s' h hs hle
        by_cases ha : kind = .array
        · subst ha
          rw [value] at h
          obtain ⟨hle', h⟩ := of_within_limit h hs
          rcases hopen : src.openArray s with ⟨next, s₁⟩
          rw [hopen] at h
          obtain ⟨hf, h⟩ := of_unless_failed h hs
          obtain ⟨vs, d, rfl, hands, hd⟩ := ihItems h hs hle'
          exact ⟨d + 1, .array hopen hf hands, by omega⟩
        by_cases ho : kind = .object
        · subst ho
          rw [value] at h
          obtain ⟨hle', h⟩ := of_within_limit h hs
          rcases hopen : src.openObject s with ⟨next, s₁⟩
          rw [hopen] at h
          obtain ⟨hf, h⟩ := of_unless_failed h hs
          obtain ⟨ms, d, rfl, hands, hd⟩ := ihMembers h hs hle' Table.sound_empty
          exact ⟨d + 1, .object hopen hf hands, by omega⟩
        · rw [value_scalar ha ho] at h
          exact ⟨0, hands_of_scalar (Option.some.inj h) hs, hle⟩
      · intro depth done next s v s' h hs hle
        cases next with
        | none =>
            obtain ⟨rfl, rfl⟩ := Prod.mk.inj (Option.some.inj h)
            exact ⟨[], 0, by rw [List.append_nil], .itemsEnd s, hle⟩
        | some kind =>
            rw [items] at h
            rcases hv : value src limit steps kind depth s with _ | ⟨w, s₁⟩
            · rw [hv] at h
              cases h
            rw [hv] at h
            obtain ⟨hf, h⟩ := of_unless_failed h hs
            rcases hnext : src.nextItem s₁ with ⟨next, s₂⟩
            rw [hnext] at h
            obtain ⟨hf', h⟩ := of_unless_failed h hs
            obtain ⟨d, hands, hd⟩ := ihValue hv hf hle
            obtain ⟨vs, d', rfl, hands', hd'⟩ := ihItems h hs hle
            exact ⟨w :: vs, max d d', by simp, .item hands hnext hf' hands', by omega⟩
      · intro depth done next s v s' h hs hle hsound
        cases next with
        | none =>
            obtain ⟨rfl, rfl⟩ := Prod.mk.inj (Option.some.inj h)
            exact ⟨[], 0, rfl, .membersEnd s, hle⟩
        | some token =>
            rw [members] at h
            rcases hpeek : src.peek s with ⟨kind, s₁⟩
            rw [hpeek] at h
            obtain ⟨hf, h⟩ := of_unless_failed h hs
            rcases hv : value src limit steps kind depth s₁ with _ | ⟨w, s₂⟩
            · rw [hv] at h
              cases h
            rw [hv] at h
            obtain ⟨hf', h⟩ := of_unless_failed h hs
            rcases hnext : src.nextKey s₂ with ⟨next, s₃⟩
            rw [hnext] at h
            obtain ⟨hf'', h⟩ := of_unless_failed h hs
            obtain ⟨d, hands, hd⟩ := ihValue hv hf' hle
            obtain ⟨ms, d', rfl, hands', hd'⟩ := ihMembers h hs hle (hsound.insert _ w)
            refine ⟨(token.text (src.document s.state), w) :: ms, max d d', ?_,
              .member hpeek hf hands hnext hf'' hands', by omega⟩
            -- the table done so far is the list of its members, so inserting is inserting there
            rw [Table.toMembers_insert hsound]
            rfl

/-- What is built without an error has been handed out, at whatever depth it has been begun. -/
theorem hands_of_value {steps depth : Nat} {kind : Kind} {v : Value} {s s' : Session σ}
    (h : value src limit steps kind depth s = some (v, s')) (hs' : s'.failed = false) :
    ∃ d, Hands src (.value kind v) d s s' := by
  by_cases hd : depth ≤ limit
  · obtain ⟨d, hands, -⟩ := (hands_of_answer steps).1 h hs' hd
    exact ⟨d, hands⟩
  -- beyond the limit nothing is opened
  cases steps with
  | zero => cases h
  | succ steps =>
      by_cases ha : kind = .array
      · subst ha
        rw [value] at h
        exact absurd (of_within_limit h hs').1 (by omega)
      by_cases ho : kind = .object
      · subst ho
        rw [value] at h
        exact absurd (of_within_limit h hs').1 (by omega)
      · rw [value_scalar ha ho] at h
        exact ⟨0, hands_of_scalar (Option.some.inj h) hs'⟩

/-! ### More steps -/

/-- One step more than a positive number is a step and that number. -/
theorem exists_steps {n steps : Nat} (h : n + 1 ≤ steps) : ∃ m, steps = m + 1 ∧ n ≤ m :=
  ⟨steps - 1, by omega, by omega⟩

/-- **An answer is not changed by allowing more steps**, as it is not for the builder that counts. -/
theorem answer_extends (m : Nat) :
    (∀ n kind depth s, m ≤ n →
      Extends (value src limit m kind depth s) (value src limit n kind depth s)) ∧
    (∀ n depth done next s, m ≤ n →
      Extends (items src limit m depth done next s) (items src limit n depth done next s)) ∧
    ∀ n depth done next s, m ≤ n →
      Extends (members src limit m depth done next s) (members src limit n depth done next s) := by
  refine ⟨fun n kind depth s hle => ?_, fun n depth done next s hle => ?_,
    fun n depth done next s hle => ?_⟩
  · rw [← (nested_eq m).1, ← (nested_eq n).1]
    exact ((nested_extends m).1 n kind depth s hle).map _
  · rw [← (nested_eq m).2.1, ← (nested_eq n).2.1]
    exact ((nested_extends m).2.1 n depth done next s hle).map _
  · rw [← (nested_eq m).2.2, ← (nested_eq n).2.2]
    exact ((nested_extends m).2.2 n depth done next s hle).map _

/-! ### What is handed out is built -/

/-- With steps enough, a run of the builder over the part ends, and ends so. -/
def Settles (src : TokenSource σ) (limit : Nat) : Part → Nat → Session σ → Session σ → Prop
  | .value kind v, d, s, s' => ∃ n, ∀ steps depth, n ≤ steps → depth + d ≤ limit →
      value src limit steps kind depth s = some (v, s')
  | .items next vs, d, s, s' => ∃ n, ∀ steps depth done, n ≤ steps → depth + d ≤ limit →
      items src limit steps depth done next s = some (.array (done.reverse ++ vs), s')
  | .members next ms, d, s, s' => ∃ n, ∀ steps depth (done : KeyTable), n ≤ steps →
      depth + d ≤ limit → done.Sound →
      members src limit steps depth done next s = some (.object (done.toMembers.insertAll ms), s')

theorem settles_scalar {kind : Kind} {v : Value} {s s' : Session σ} (ha : kind ≠ .array)
    (ho : kind ≠ .object) (h : scalar src kind s = (v, s')) :
    Settles src limit (.value kind v) 0 s s' := by
  refine ⟨1, fun steps depth hsteps _ => ?_⟩
  obtain ⟨m, rfl, -⟩ := exists_steps (n := 0) hsteps
  rw [value_scalar ha ho, h]

theorem settle_of_not_failed {v : Value} {s : Session σ} (h : s.failed = false) :
    settle v s = (v, s) := by
  rw [settle, if_neg (by simp [h])]

/-- **What is handed out is built, with steps enough**, if it is not nested beyond the limit. -/
theorem Hands.settles {part : Part} {d : Nat} {s s' : Session σ} (h : Hands src part d s s') :
    Settles src limit part d s s' := by
  -- on what is handed out; a rule takes one step more than the parts it is made of
  induction h with
  | null hr hs => exact settles_scalar (by decide) (by decide) (Prod.ext rfl hr)
  | @boolean s s' kind b hk hr hs =>
      rcases hk with rfl | rfl <;>
        refine settles_scalar (by decide) (by decide) ?_ <;>
        rw [scalar, hr] <;> exact settle_of_not_failed hs
  | string hr hs =>
      refine settles_scalar (by decide) (by decide) ?_
      rw [scalar, hr]
      exact settle_of_not_failed hs
  | integer hr hs =>
      refine settles_scalar (by decide) (by decide) ?_
      rw [scalar, number, hr]
      exact if_neg (by simp [hs])
  | floating hi hs hr hs' =>
      refine settles_scalar (by decide) (by decide) ?_
      rw [scalar, number, hi]
      simp only [hs, hr, Bool.false_eq_true, ↓reduceIte]
      exact settle_of_not_failed hs'
  | nonFinite hk hr hs =>
      rcases hk with rfl | rfl <;>
        refine settles_scalar (by decide) (by decide) ?_ <;>
        rw [scalar, hr] <;> exact settle_of_not_failed hs
  | array hopen hs _ ih =>
      obtain ⟨n, ih⟩ := ih
      refine ⟨n + 1, fun steps depth hsteps hle => ?_⟩
      obtain ⟨m, rfl, hm⟩ := exists_steps hsteps
      rw [value, if_neg (by omega), hopen]
      simp only [hs, Bool.false_eq_true, ↓reduceIte]
      exact ih m (depth + 1) [] hm (by omega)
  | object hopen hs _ ih =>
      obtain ⟨n, ih⟩ := ih
      refine ⟨n + 1, fun steps depth hsteps hle => ?_⟩
      obtain ⟨m, rfl, hm⟩ := exists_steps hsteps
      rw [value, if_neg (by omega), hopen]
      simp only [hs, Bool.false_eq_true, ↓reduceIte]
      exact ih m (depth + 1) .empty hm (by omega) Table.sound_empty
  | itemsEnd s =>
      refine ⟨1, fun steps depth done hsteps _ => ?_⟩
      obtain ⟨m, rfl, -⟩ := exists_steps (n := 0) hsteps
      rw [List.append_nil]
      rfl
  | item hands hnext hs _ ihValue ihItems =>
      obtain ⟨n, ihValue⟩ := ihValue
      obtain ⟨n', ihItems⟩ := ihItems
      refine ⟨max n n' + 1, fun steps depth done hsteps hle => ?_⟩
      obtain ⟨m, rfl, hm⟩ := exists_steps hsteps
      rw [items, ihValue m depth (by omega) (by omega)]
      simp only [hands.value_ends, hnext, hs, Bool.false_eq_true, ↓reduceIte]
      rw [ihItems m depth _ (by omega) (by omega)]
      simp
  | membersEnd s =>
      refine ⟨1, fun steps depth done hsteps _ _ => ?_⟩
      obtain ⟨m, rfl, -⟩ := exists_steps (n := 0) hsteps
      rfl
  | @member s s₁ s₂ s₃ s' token kind v next ms d d' hpeek hs hands hnext hs' _ ihValue ihMembers =>
      obtain ⟨n, ihValue⟩ := ihValue
      obtain ⟨n', ihMembers⟩ := ihMembers
      refine ⟨max n n' + 1, fun steps depth done hsteps hle hsound => ?_⟩
      obtain ⟨m, rfl, hm⟩ := exists_steps hsteps
      rw [members, hpeek]
      simp only [hs, Bool.false_eq_true, ↓reduceIte]
      rw [ihValue m depth (by omega) (by omega)]
      simp only [hands.value_ends, hnext, hs', Bool.false_eq_true, ↓reduceIte]
      rw [ihMembers m depth _ (by omega) (by omega) (hsound.insert _ v),
        Table.toMembers_insert hsound]
      rfl

/-- A value that is handed out is the only answer, however many steps are allowed. -/
theorem Hands.builds {kind : Kind} {v : Value} {d : Nat} {s s' : Session σ}
    (h : Hands src (.value kind v) d s s') (depth steps : Nat) (r : Value × Session σ)
    (hd : depth + d ≤ limit) (hr : value src limit steps kind depth s = some r) : r = (v, s') := by
  obtain ⟨n, hn⟩ : Settles src limit (.value kind v) d s s' := h.settles
  have hmax := (answer_extends steps).1 _ kind depth s (Nat.le_max_right n steps) _ hr
  rw [hn _ depth (Nat.le_max_left n steps) hd] at hmax
  exact (Option.some.inj hmax).symm

/-! ### Whole values -/

/-- The source hands out a whole value, one that has been announced or the one that comes next. -/
def HandsOut (src : TokenSource σ) (announced : Option Kind) (v : Value) (depth : Nat)
    (s s' : Session σ) : Prop :=
  match announced with
  | some kind => Hands src (.value kind v) depth s s'
  | none => ∃ kind s₁, src.peek s = (kind, s₁) ∧ s₁.failed = false ∧
      Hands src (.value kind v) depth s₁ s'

/-- Builds the value that has been announced, or the one that comes next. -/
def whole? (src : TokenSource σ) (limit steps : Nat) (announced : Option Kind) (s : Session σ) :
    Option (Value × Session σ) :=
  match announced with
  | some kind => announced? src limit steps kind s
  | none => next? src limit steps s

/-- What has been handed out leaves no error. -/
theorem HandsOut.not_failed {announced : Option Kind} {v : Value} {depth : Nat} {s s' : Session σ}
    (h : HandsOut src announced v depth s s') : s'.failed = false := by
  cases announced with
  | some kind => exact Hands.value_ends h
  | none =>
      obtain ⟨kind, s₁, -, -, h⟩ := h
      exact h.value_ends

theorem hands_of_announced? {steps : Nat} {kind : Kind} {v : Value} {s s' : Session σ}
    (h : announced? src limit steps kind s = some (v, s')) (hs : s'.failed = false) :
    ∃ d, Hands src (.value kind v) d s s' ∧ d ≤ limit := by
  obtain ⟨⟨w, s₁⟩, hv, hsettle⟩ := Option.map_eq_some_iff.mp h
  obtain ⟨rfl, rfl⟩ := settle_eq hsettle hs
  obtain ⟨d, hands, hd⟩ := (hands_of_answer steps).1 hv hs (Nat.zero_le limit)
  exact ⟨d, hands, by omega⟩

/-- A whole value that is built without an error has been handed out. -/
theorem handsOut_of_whole? {steps : Nat} {announced : Option Kind} {v : Value} {s s' : Session σ}
    (h : whole? src limit steps announced s = some (v, s')) (hs : s'.failed = false) :
    ∃ d, HandsOut src announced v d s s' ∧ d ≤ limit := by
  cases announced with
  | some kind => exact hands_of_announced? h hs
  | none =>
      rw [whole?, next?] at h
      rcases hpeek : src.peek s with ⟨kind, s₁⟩
      rw [hpeek] at h
      obtain ⟨hf, h⟩ := of_unless_failed h hs
      obtain ⟨d, hands, hd⟩ := hands_of_announced? h hs
      exact ⟨d, ⟨kind, s₁, hpeek, hf, hands⟩, hd⟩

/-- What a whole run answers is not changed by allowing more steps. -/
theorem whole?_extends {steps steps' : Nat} (hle : steps ≤ steps') (announced : Option Kind)
    (s : Session σ) :
    Extends (whole? src limit steps announced s) (whole? src limit steps' announced s) := by
  have settled : ∀ kind s, Extends (announced? src limit steps kind s)
      (announced? src limit steps' kind s) :=
    fun kind s => ((answer_extends steps).1 steps' kind 0 s hle).map _
  cases announced with
  | some kind => exact settled kind s
  | none =>
      rw [whole?, whole?, next?, next?]
      exact .orStop (settled _ _)

/-- A run that answers so with steps enough has no other answer. -/
theorem eq_of_whole? {steps n : Nat} {announced : Option Kind} {s : Session σ}
    {r r' : Value × Session σ} (hn : ∀ steps, n ≤ steps → whole? src limit steps announced s = some r)
    (h : whole? src limit steps announced s = some r') : r' = r := by
  have hmax := whole?_extends (Nat.le_max_right n steps) announced s _ h
  rw [hn _ (Nat.le_max_left n steps)] at hmax
  exact (Option.some.inj hmax).symm

/-- A whole value that is handed out is built, with steps enough. -/
theorem HandsOut.settles {announced : Option Kind} {v : Value} {d : Nat} {s s' : Session σ}
    (h : HandsOut src announced v d s s') (hd : d ≤ limit) :
    ∃ n, ∀ steps, n ≤ steps → whole? src limit steps announced s = some (v, s') := by
  have settled : ∀ {kind} {s : Session σ}, Hands src (.value kind v) d s s' →
      ∃ n, ∀ steps, n ≤ steps → announced? src limit steps kind s = some (v, s') := by
    intro kind s h
    obtain ⟨n, hn⟩ : Settles src limit (.value kind v) d s s' := h.settles
    refine ⟨n, fun steps hsteps => ?_⟩
    rw [announced?, hn steps 0 hsteps (by omega)]
    exact congrArg some (settle_of_not_failed h.value_ends)
  cases announced with
  | some kind => exact settled h
  | none =>
      obtain ⟨kind, s₁, hpeek, hs, h⟩ := h
      obtain ⟨n, hn⟩ := settled h
      refine ⟨n, fun steps hsteps => ?_⟩
      rw [whole?, next?, hpeek]
      simp only [hs, Bool.false_eq_true, ↓reduceIte]
      exact hn steps hsteps

/-- A whole value that is handed out is built. -/
theorem whole?_of_handsOut {steps d : Nat} {announced : Option Kind} {v : Value}
    {s s' : Session σ} {r : Value × Session σ} (h : HandsOut src announced v d s s')
    (hd : d ≤ limit) (hr : whole? src limit steps announced s = some r) : r = (v, s') := by
  obtain ⟨n, hn⟩ := h.settles hd
  exact eq_of_whole? hn hr

/-- Over a source that comes to an end every run has an answer. -/
theorem exists_whole? {measure : σ → Nat} (bounded : src.Bounded measure) (limit : Nat)
    (announced : Option Kind) (s : Session σ) :
    ∃ r, whole? src limit (bounded.steps s) announced s = some r := by
  cases announced with
  | some kind =>
      exact Option.isSome_iff_exists.mp (announced?_isSome bounded limit kind s (Nat.le_refl _))
  | none => exact Option.isSome_iff_exists.mp (next?_isSome bounded limit s (Nat.le_refl _))

/-- With an error on record nothing of a tree is answered. -/
theorem null_of_failed {steps : Nat} {announced : Option Kind} {v : Value} {s s' : Session σ}
    (h : whole? src limit steps announced s = some (v, s')) (hs : s'.failed = true) : v = .null := by
  have settled : ∀ {kind : Kind} {s : Session σ}, announced? src limit steps kind s = some (v, s') →
      v = .null := by
    intro kind s h
    obtain ⟨r, -, hsettle⟩ := Option.map_eq_some_iff.mp h
    obtain ⟨rfl, rfl⟩ := Prod.mk.inj hsettle
    exact if_pos hs
  cases announced with
  | some kind => exact settled h
  | none =>
      rw [whole?, next?] at h
      dsimp only at h
      split at h
      · exact (Prod.mk.inj (Option.some.inj h)).1.symm
      · exact settled h

end Build

namespace TokenSource.Bounded

variable {σ : Type} {src : TokenSource σ} {measure : σ → Nat}

/-- **A bounded source's value is built without an error exactly when it is handed out** and not
nested beyond the limit. -/
theorem build_eq_iff (bounded : src.Bounded measure) {limit : Nat} {v : Value} {s s' : Session σ} :
    bounded.build limit s = (v, s') ∧ s'.failed = false ↔
      ∃ d, Build.HandsOut src none v d s s' ∧ d ≤ limit := by
  have hsome : Build.whole? src limit (bounded.steps s) none s = some (bounded.build limit s) :=
    (Option.some_get _).symm
  constructor
  · rintro ⟨h, hs⟩
    rw [h] at hsome
    exact Build.handsOut_of_whole? hsome hs
  · rintro ⟨d, h, hd⟩
    exact ⟨Build.whole?_of_handsOut h hd hsome, h.not_failed⟩

end TokenSource.Bounded

end JsonTree
