import JsonTree.Proofs.Builder

/-!
# Outcome — a run of the builder ends at its first error

`Breaks src limit stage depth s s'` says, without the builder, that building a part of a document
goes wrong: what comes before has been handed out, and then an operation of the source records an
error, or there is one of the builder's own, in the session `s'`.  There is one rule for each
operation that may be asked for and for each error of the builder's own, and one for each way from a
part into the parts it is made of.

* `Breaks.settles`: a run over a part that goes wrong ends there and answers null, with steps
  enough.
* `breaks_of_answer`: a run over a part that ends with an error on record has gone wrong there.
* `RunBreaks.settles`, `runBreaks_of_whole?`: the same for whole values.
-/

namespace JsonTree

namespace Build

variable {σ : Type}

/-! ### Where building goes wrong -/

/-- A part of a document that the builder is about to go through. -/
inductive Stage where
  /-- The value that has been announced. -/
  | value (kind : Kind)
  /-- The items from an announced one on. -/
  | items (next : Option Kind)
  /-- The members from one whose key has been read on. -/
  | members (next : Option StringToken)

/-- Building goes wrong in the part, which is inside as many arrays and objects as `depth` says. -/
inductive Breaks (src : TokenSource σ) (limit : Nat) :
    Stage → (depth : Nat) → Session σ → Session σ → Prop where
  | null {s s' : Session σ} {depth : Nat} : src.readNull s = s' → s'.failed = true →
      Breaks src limit (.value .null) depth s s'
  | boolean {s s' : Session σ} {kind : Kind} {b : Bool} {depth : Nat} :
      kind = .true ∨ kind = .false → src.readBool kind s = (b, s') → s'.failed = true →
      Breaks src limit (.value kind) depth s s'
  | string {s s' : Session σ} {t : StringToken} {depth : Nat} : src.readString s = (t, s') →
      s'.failed = true → Breaks src limit (.value .string) depth s s'
  | integer {s s' : Session σ} {token : IntegerToken} {depth : Nat} :
      src.readInteger s = (token, s') → s'.failed = true →
      Breaks src limit (.value .number) depth s s'
  | tooLarge {s s₁ : Session σ} {depth : Nat} : src.readInteger s = (.tooLarge, s₁) →
      s₁.failed = false → Breaks src limit (.value .number) depth s (fail src s₁ .integerTooLarge)
  | float {s s₁ s' : Session σ} {x : Binary64} {depth : Nat} :
      src.readInteger s = (.notInteger, s₁) → s₁.failed = false → src.readFloat s₁ = (x, s') →
      s'.failed = true → Breaks src limit (.value .number) depth s s'
  | nonFinite {s s' : Session σ} {kind : Kind} {x : Binary64} {depth : Nat} :
      kind = .infinity ∨ kind = .nan → src.readFloat s = (x, s') → s'.failed = true →
      Breaks src limit (.value kind) depth s s'
  | minus (s : Session σ) (depth : Nat) :
      Breaks src limit (.value .minus) depth s (fail src s .unresolvedMinus)
  | other (s : Session σ) (depth : Nat) :
      Breaks src limit (.value .other) depth s (fail src s .unsupportedToken)
  | deep {s : Session σ} {kind : Kind} {depth : Nat} : kind = .array ∨ kind = .object →
      limit < depth + 1 → Breaks src limit (.value kind) depth s (fail src s .nestingTooDeep)
  | openArray {s s' : Session σ} {next : Option Kind} {depth : Nat} : depth + 1 ≤ limit →
      src.openArray s = (next, s') → s'.failed = true → Breaks src limit (.value .array) depth s s'
  | array {s s₁ s' : Session σ} {next : Option Kind} {depth : Nat} : depth + 1 ≤ limit →
      src.openArray s = (next, s₁) → s₁.failed = false →
      Breaks src limit (.items next) (depth + 1) s₁ s' → Breaks src limit (.value .array) depth s s'
  | openObject {s s' : Session σ} {next : Option StringToken} {depth : Nat} : depth + 1 ≤ limit →
      src.openObject s = (next, s') → s'.failed = true → Breaks src limit (.value .object) depth s s'
  | object {s s₁ s' : Session σ} {next : Option StringToken} {depth : Nat} : depth + 1 ≤ limit →
      src.openObject s = (next, s₁) → s₁.failed = false →
      Breaks src limit (.members next) (depth + 1) s₁ s' →
      Breaks src limit (.value .object) depth s s'
  | item {s s' : Session σ} {kind : Kind} {depth : Nat} : Breaks src limit (.value kind) depth s s' →
      Breaks src limit (.items (some kind)) depth s s'
  | nextItem {s s₁ s' : Session σ} {kind : Kind} {v : Value} {next : Option Kind} {d depth : Nat} :
      Hands src (.value kind v) d s s₁ → depth + d ≤ limit → src.nextItem s₁ = (next, s') →
      s'.failed = true → Breaks src limit (.items (some kind)) depth s s'
  | itemBehind {s s₁ s₂ s' : Session σ} {kind : Kind} {v : Value} {next : Option Kind}
      {d depth : Nat} : Hands src (.value kind v) d s s₁ → depth + d ≤ limit →
      src.nextItem s₁ = (next, s₂) → s₂.failed = false →
      Breaks src limit (.items next) depth s₂ s' → Breaks src limit (.items (some kind)) depth s s'
  | peek {s s' : Session σ} {token : StringToken} {kind : Kind} {depth : Nat} :
      src.peek s = (kind, s') → s'.failed = true →
      Breaks src limit (.members (some token)) depth s s'
  | member {s s₁ s' : Session σ} {token : StringToken} {kind : Kind} {depth : Nat} :
      src.peek s = (kind, s₁) → s₁.failed = false → Breaks src limit (.value kind) depth s₁ s' →
      Breaks src limit (.members (some token)) depth s s'
  | nextKey {s s₁ s₂ s' : Session σ} {token : StringToken} {kind : Kind} {v : Value}
      {next : Option StringToken} {d depth : Nat} : src.peek s = (kind, s₁) → s₁.failed = false →
      Hands src (.value kind v) d s₁ s₂ → depth + d ≤ limit → src.nextKey s₂ = (next, s') →
      s'.failed = true → Breaks src limit (.members (some token)) depth s s'
  | memberBehind {s s₁ s₂ s₃ s' : Session σ} {token : StringToken} {kind : Kind} {v : Value}
      {next : Option StringToken} {d depth : Nat} : src.peek s = (kind, s₁) → s₁.failed = false →
      Hands src (.value kind v) d s₁ s₂ → depth + d ≤ limit → src.nextKey s₂ = (next, s₃) →
      s₃.failed = false → Breaks src limit (.members next) depth s₃ s' →
      Breaks src limit (.members (some token)) depth s s'

variable {src : TokenSource σ} {limit : Nat}

/-- An error is on record where building has gone wrong. -/
theorem Breaks.failed {stage : Stage} {depth : Nat} {s s' : Session σ}
    (h : Breaks src limit stage depth s s') : s'.failed = true := by
  induction h with
  | null _ hs | string _ hs | integer _ hs => exact hs
  | boolean _ _ hs | nonFinite _ _ hs => exact hs
  | float _ _ _ hs => exact hs
  | tooLarge _ _ | minus _ _ | other _ _ | deep _ _ => exact failed_fail _ _ _
  | openArray _ _ hs | openObject _ _ hs => exact hs
  | array _ _ _ _ ih | object _ _ _ _ ih => exact ih
  | nextItem _ _ _ hs => exact hs
  | item _ ih | itemBehind _ _ _ _ _ ih => exact ih
  | peek _ hs => exact hs
  | nextKey _ _ _ _ _ hs => exact hs
  | member _ _ _ ih | memberBehind _ _ _ _ _ _ _ ih => exact ih

/-! ### A run ends where it goes wrong -/

/-- With steps enough, a run of the builder over the part ends in the session and answers null. -/
def BreaksOff (src : TokenSource σ) (limit : Nat) : Stage → Nat → Session σ → Session σ → Prop
  | .value kind, depth, s, s' => ∃ n, ∀ steps, n ≤ steps →
      value src limit steps kind depth s = some (.null, s')
  | .items next, depth, s, s' => ∃ n, ∀ steps done, n ≤ steps →
      items src limit steps depth done next s = some (.null, s')
  | .members next, depth, s, s' => ∃ n, ∀ steps done, n ≤ steps →
      members src limit steps depth done next s = some (.null, s')

theorem breaksOff_scalar {kind : Kind} {depth : Nat} {s s' : Session σ} (ha : kind ≠ .array)
    (ho : kind ≠ .object) (h : scalar src kind s = (.null, s')) :
    BreaksOff src limit (.value kind) depth s s' := by
  refine ⟨1, fun steps hsteps => ?_⟩
  obtain ⟨m, rfl, -⟩ := exists_steps (n := 0) hsteps
  rw [value_scalar ha ho, h]

theorem settle_of_failed {v : Value} {s : Session σ} (h : s.failed = true) :
    settle v s = (.null, s) := by
  rw [settle, if_pos h]

/-- **A run over a part that goes wrong ends there and answers null**, with steps enough. -/
theorem Breaks.settles {stage : Stage} {depth : Nat} {s s' : Session σ}
    (h : Breaks src limit stage depth s s') : BreaksOff src limit stage depth s s' := by
  -- on where it goes wrong; what has been handed out before takes steps of its own
  induction h with
  | null hr _ => exact breaksOff_scalar (by decide) (by decide) (Prod.ext rfl hr)
  | boolean hk hr hs =>
      rcases hk with rfl | rfl <;>
        refine breaksOff_scalar (by decide) (by decide) ?_ <;>
        rw [scalar, hr] <;> exact settle_of_failed hs
  | string hr hs =>
      refine breaksOff_scalar (by decide) (by decide) ?_
      rw [scalar, hr]
      exact settle_of_failed hs
  | integer hr hs =>
      refine breaksOff_scalar (by decide) (by decide) ?_
      rw [scalar, number, hr]
      exact if_pos hs
  | tooLarge hi hs =>
      refine breaksOff_scalar (by decide) (by decide) ?_
      rw [scalar, number, hi]
      simp only [hs, Bool.false_eq_true, ↓reduceIte]
  | float hi hs hr hs' =>
      refine breaksOff_scalar (by decide) (by decide) ?_
      rw [scalar, number, hi]
      simp only [hs, hr, Bool.false_eq_true, ↓reduceIte]
      exact settle_of_failed hs'
  | nonFinite hk hr hs =>
      rcases hk with rfl | rfl <;>
        refine breaksOff_scalar (by decide) (by decide) ?_ <;>
        rw [scalar, hr] <;> exact settle_of_failed hs
  | minus s depth | other s depth => exact breaksOff_scalar (by decide) (by decide) rfl
  | deep hk hlt =>
      refine ⟨1, fun steps hsteps => ?_⟩
      obtain ⟨m, rfl, -⟩ := exists_steps (n := 0) hsteps
      rcases hk with rfl | rfl <;> rw [value, if_pos hlt]
  | openArray hle hopen hs | openObject hle hopen hs =>
      refine ⟨1, fun steps hsteps => ?_⟩
      obtain ⟨m, rfl, -⟩ := exists_steps (n := 0) hsteps
      rw [value, if_neg (by omega), hopen]
      exact if_pos hs
  | array hle hopen hs _ ih =>
      obtain ⟨n, ih⟩ := ih
      refine ⟨n + 1, fun steps hsteps => ?_⟩
      obtain ⟨m, rfl, hm⟩ := exists_steps hsteps
      rw [value, if_neg (by omega), hopen]
      simp only [hs, Bool.false_eq_true, ↓reduceIte]
      exact ih m [] hm
  | object hle hopen hs _ ih =>
      obtain ⟨n, ih⟩ := ih
      refine ⟨n + 1, fun steps hsteps => ?_⟩
      obtain ⟨m, rfl, hm⟩ := exists_steps hsteps
      rw [value, if_neg (by omega), hopen]
      simp only [hs, Bool.false_eq_true, ↓reduceIte]
      exact ih m .empty hm
  | item hv ih =>
      obtain ⟨n, ih⟩ := ih
      refine ⟨n + 1, fun steps done hsteps => ?_⟩
      obtain ⟨m, rfl, hm⟩ := exists_steps hsteps
      rw [items, ih m hm]
      exact if_pos hv.failed
  | nextItem hands hle hnext hs =>
      obtain ⟨n, hvalue⟩ := hands.settles
      refine ⟨n + 1, fun steps done hsteps => ?_⟩
      obtain ⟨m, rfl, hm⟩ := exists_steps hsteps
      rw [items, hvalue m _ hm hle]
      simp only [hands.value_ends, hnext, hs, Bool.false_eq_true, ↓reduceIte]
  | itemBehind hands hle hnext hs _ ih =>
      obtain ⟨n, hvalue⟩ := hands.settles
      obtain ⟨n', ih⟩ := ih
      refine ⟨max n n' + 1, fun steps done hsteps => ?_⟩
      obtain ⟨m, rfl, hm⟩ := exists_steps hsteps
      rw [items, hvalue m _ (by omega) hle]
      simp only [hands.value_ends, hnext, hs, Bool.false_eq_true, ↓reduceIte]
      exact ih m _ (by omega)
  | peek hpeek hs =>
      refine ⟨1, fun steps done hsteps => ?_⟩
      obtain ⟨m, rfl, -⟩ := exists_steps (n := 0) hsteps
      rw [members, hpeek]
      exact if_pos hs
  | member hpeek hs hv ih =>
      obtain ⟨n, ih⟩ := ih
      refine ⟨n + 1, fun steps done hsteps => ?_⟩
      obtain ⟨m, rfl, hm⟩ := exists_steps hsteps
      rw [members, hpeek]
      simp only [hs, ih m hm, hv.failed, Bool.false_eq_true, ↓reduceIte]
  | nextKey hpeek hs hands hle hnext hs' =>
      obtain ⟨n, hvalue⟩ := hands.settles
      refine ⟨n + 1, fun steps done hsteps => ?_⟩
      obtain ⟨m, rfl, hm⟩ := exists_steps hsteps
      rw [members, hpeek]
      simp only [hs, Bool.false_eq_true, ↓reduceIte]
      rw [hvalue m _ hm hle]
      simp only [hands.value_ends, hnext, hs', Bool.false_eq_true, ↓reduceIte]
  | memberBehind hpeek hs hands hle hnext hs' _ ih =>
      obtain ⟨n, hvalue⟩ := hands.settles
      obtain ⟨n', ih⟩ := ih
      refine ⟨max n n' + 1, fun steps done hsteps => ?_⟩
      obtain ⟨m, rfl, hm⟩ := exists_steps hsteps
      rw [members, hpeek]
      simp only [hs, Bool.false_eq_true, ↓reduceIte]
      rw [hvalue m _ (by omega) hle]
      simp only [hands.value_ends, hnext, hs', Bool.false_eq_true, ↓reduceIte]
      exact ih m _ (by omega)

/-! ### A run that ends with an error has gone wrong -/

theorem breaks_of_number {depth : Nat} {s s' : Session σ} {v : Value} (h : number src s = (v, s'))
    (hs : s'.failed = true) : Breaks src limit (.value .number) depth s s' := by
  rw [number] at h
  rcases hi : src.readInteger s with ⟨token, s₁⟩
  rw [hi] at h
  dsimp only at h
  split at h
  · obtain ⟨-, rfl⟩ := Prod.mk.inj h
    exact .integer hi hs
  next hf =>
    rw [Bool.not_eq_true] at hf
    cases token with
    | value n =>
        obtain ⟨-, rfl⟩ := Prod.mk.inj h
        rw [hf] at hs
        cases hs
    | tooLarge =>
        obtain ⟨-, rfl⟩ := Prod.mk.inj h
        exact .tooLarge hi hf
    | notInteger =>
        obtain ⟨-, rfl⟩ := Prod.mk.inj h
        exact .float hi hf rfl hs

theorem breaks_of_scalar {kind : Kind} {depth : Nat} {s s' : Session σ} {v : Value}
    (ha : kind ≠ .array) (ho : kind ≠ .object) (h : scalar src kind s = (v, s'))
    (hs : s'.failed = true) : Breaks src limit (.value kind) depth s s' := by
  cases kind with
  | number => exact breaks_of_number h hs
  | array => exact absurd rfl ha
  | object => exact absurd rfl ho
  | null =>
      obtain ⟨-, rfl⟩ := Prod.mk.inj h
      exact .null rfl hs
  | true | false =>
      obtain ⟨-, rfl⟩ := Prod.mk.inj h
      exact .boolean (by decide) rfl hs
  | string =>
      obtain ⟨-, rfl⟩ := Prod.mk.inj h
      exact .string rfl hs
  | infinity | nan =>
      obtain ⟨-, rfl⟩ := Prod.mk.inj h
      exact .nonFinite (by decide) rfl hs
  | minus =>
      obtain ⟨-, rfl⟩ := Prod.mk.inj h
      exact .minus s depth
  | other =>
      obtain ⟨-, rfl⟩ := Prod.mk.inj h
      exact .other s depth

/-- **A run that ends with an error on record has gone wrong there.** -/
theorem breaks_of_answer (steps : Nat) :
    (∀ {kind depth s v s'}, value src limit steps kind depth s = some (v, s') →
      s'.failed = true → depth ≤ limit → Breaks src limit (.value kind) depth s s') ∧
    (∀ {depth done next s v s'}, items src limit steps depth done next s = some (v, s') →
      s.failed = false → s'.failed = true → depth ≤ limit →
      Breaks src limit (.items next) depth s s') ∧
    ∀ {depth done next s v s'}, members src limit steps depth done next s = some (v, s') →
      s.failed = false → s'.failed = true → depth ≤ limit →
      Breaks src limit (.members next) depth s s' := by
  -- on the steps allowed; at each check either the run ends, or no error is on record and it goes on
  induction steps with
  | zero => exact ⟨(fun h => nomatch h), (fun h => nomatch h), (fun h => nomatch h)⟩
  | succ steps ih =>
      obtain ⟨ihValue, ihItems, ihMembers⟩ := ih
      refine ⟨?_, ?_, ?_⟩
      · intro kind depth s v s' h hs' hle
        by_cases ha : kind = .array
        · subst ha
          rw [value] at h
          split at h
          · next hlt =>
              obtain ⟨-, rfl⟩ := Prod.mk.inj (Option.some.inj h)
              exact .deep (.inl rfl) hlt
          next hlt =>
            rw [Nat.not_lt] at hlt
            rcases hopen : src.openArray s with ⟨next, s₁⟩
            rw [hopen] at h
            cases hs₁ : s₁.failed with
            | true =>
                simp only [hs₁, ↓reduceIte] at h
                obtain ⟨-, rfl⟩ := Prod.mk.inj (Option.some.inj h)
                exact .openArray hlt hopen hs₁
            | false =>
                simp only [hs₁, Bool.false_eq_true, ↓reduceIte] at h
                exact .array hlt hopen hs₁ (ihItems h hs₁ hs' hlt)
        by_cases ho : kind = .object
        · subst ho
          rw [value] at h
          split at h
          · next hlt =>
              obtain ⟨-, rfl⟩ := Prod.mk.inj (Option.some.inj h)
              exact .deep (.inr rfl) hlt
          next hlt =>
            rw [Nat.not_lt] at hlt
            rcases hopen : src.openObject s with ⟨next, s₁⟩
            rw [hopen] at h
            cases hs₁ : s₁.failed with
            | true =>
                simp only [hs₁, ↓reduceIte] at h
                obtain ⟨-, rfl⟩ := Prod.mk.inj (Option.some.inj h)
                exact .openObject hlt hopen hs₁
            | false =>
                simp only [hs₁, Bool.false_eq_true, ↓reduceIte] at h
                exact .object hlt hopen hs₁ (ihMembers h hs₁ hs' hlt)
        · rw [value_scalar ha ho] at h
          exact breaks_of_scalar ha ho (Option.some.inj h) hs'
      · intro depth done next s v s' h hs hs' hle
        cases next with
        | none =>
            obtain ⟨-, rfl⟩ := Prod.mk.inj (Option.some.inj h)
            rw [hs] at hs'
            cases hs'
        | some kind =>
            rw [items] at h
            rcases hv : value src limit steps kind depth s with _ | ⟨w, s₁⟩
            · rw [hv] at h
              cases h
            rw [hv] at h
            cases hs₁ : s₁.failed with
            | true =>
                simp only [hs₁, ↓reduceIte] at h
                obtain ⟨-, rfl⟩ := Prod.mk.inj (Option.some.inj h)
                exact .item (ihValue hv hs₁ hle)
            | false =>
                obtain ⟨d, hands, hd⟩ := (hands_of_answer steps).1 hv hs₁ hle
                rcases hnext : src.nextItem s₁ with ⟨next, s₂⟩
                simp only [hs₁, hnext, Bool.false_eq_true, ↓reduceIte] at h
                cases hs₂ : s₂.failed with
                | true =>
                    simp only [hs₂, ↓reduceIte] at h
                    obtain ⟨-, rfl⟩ := Prod.mk.inj (Option.some.inj h)
                    exact .nextItem hands hd hnext hs₂
                | false =>
                    simp only [hs₂, Bool.false_eq_true, ↓reduceIte] at h
                    exact .itemBehind hands hd hnext hs₂ (ihItems h hs₂ hs' hle)
      · intro depth done next s v s' h hs hs' hle
        cases next with
        | none =>
            obtain ⟨-, rfl⟩ := Prod.mk.inj (Option.some.inj h)
            rw [hs] at hs'
            cases hs'
        | some token =>
            rw [members] at h
            rcases hpeek : src.peek s with ⟨kind, s₁⟩
            rw [hpeek] at h
            cases hs₁ : s₁.failed with
            | true =>
                simp only [hs₁, ↓reduceIte] at h
                obtain ⟨-, rfl⟩ := Prod.mk.inj (Option.some.inj h)
                exact .peek hpeek hs₁
            | false =>
                simp only [hs₁, Bool.false_eq_true, ↓reduceIte] at h
                rcases hv : value src limit steps kind depth s₁ with _ | ⟨w, s₂⟩
                · rw [hv] at h
                  cases h
                rw [hv] at h
                cases hs₂ : s₂.failed with
                | true =>
                    simp only [hs₂, ↓reduceIte] at h
                    obtain ⟨-, rfl⟩ := Prod.mk.inj (Option.some.inj h)
                    exact .member hpeek hs₁ (ihValue hv hs₂ hle)
                | false =>
                    obtain ⟨d, hands, hd⟩ := (hands_of_answer steps).1 hv hs₂ hle
                    rcases hnext : src.nextKey s₂ with ⟨next, s₃⟩
                    simp only [hs₂, hnext, Bool.false_eq_true, ↓reduceIte] at h
                    cases hs₃ : s₃.failed with
                    | true =>
                        simp only [hs₃, ↓reduceIte] at h
                        obtain ⟨-, rfl⟩ := Prod.mk.inj (Option.some.inj h)
                        exact .nextKey hpeek hs₁ hands hd hnext hs₃
                    | false =>
                        simp only [hs₃, Bool.false_eq_true, ↓reduceIte] at h
                        exact .memberBehind hpeek hs₁ hands hd hnext hs₃
                          (ihMembers h hs₃ hs' hle)

/-! ### Whole values -/

/-- Building a whole value, one that has been announced or the one that comes next, goes wrong. -/
def RunBreaks (src : TokenSource σ) (limit : Nat) (announced : Option Kind)
    (s s' : Session σ) : Prop :=
  match announced with
  | some kind => Breaks src limit (.value kind) 0 s s'
  | none => ∃ kind s₁, src.peek s = (kind, s₁) ∧
      (s₁.failed = true ∧ s' = s₁ ∨ s₁.failed = false ∧ Breaks src limit (.value kind) 0 s₁ s')

/-- **A run that goes wrong ends there and answers null**, with steps enough. -/
theorem RunBreaks.settles {announced : Option Kind} {s s' : Session σ}
    (h : RunBreaks src limit announced s s') :
    ∃ n, ∀ steps, n ≤ steps → whole? src limit steps announced s = some (.null, s') := by
  have settled : ∀ {kind} {s : Session σ}, Breaks src limit (.value kind) 0 s s' →
      ∃ n, ∀ steps, n ≤ steps → announced? src limit steps kind s = some (.null, s') := by
    intro kind s h
    obtain ⟨n, hn⟩ : BreaksOff src limit (.value kind) 0 s s' := h.settles
    refine ⟨n, fun steps hsteps => ?_⟩
    rw [announced?, hn steps hsteps]
    exact congrArg some (settle_of_failed h.failed)
  cases announced with
  | some kind => exact settled h
  | none =>
      obtain ⟨kind, s₁, hpeek, ⟨hs₁, rfl⟩ | ⟨hs₁, h⟩⟩ := h
      · refine ⟨0, fun steps _ => ?_⟩
        rw [whole?, next?, hpeek]
        exact if_pos hs₁
      · obtain ⟨n, hn⟩ := settled h
        refine ⟨n, fun steps hsteps => ?_⟩
        rw [whole?, next?, hpeek]
        simp only [hs₁, Bool.false_eq_true, ↓reduceIte]
        exact hn steps hsteps

/-- A run that goes wrong has no other answer. -/
theorem RunBreaks.eq_of_whole? {announced : Option Kind} {s s' : Session σ}
    (h : RunBreaks src limit announced s s') {steps : Nat} {r : Value × Session σ}
    (hr : whole? src limit steps announced s = some r) : r = (.null, s') := by
  obtain ⟨n, hn⟩ := h.settles
  exact Build.eq_of_whole? hn hr

/-- **A run that ends with an error on record has gone wrong there.** -/
theorem runBreaks_of_whole? {steps : Nat} {announced : Option Kind} {v : Value} {s s' : Session σ}
    (h : whole? src limit steps announced s = some (v, s')) (hs : s'.failed = true) :
    RunBreaks src limit announced s s' := by
  have settled : ∀ {kind} {s : Session σ}, announced? src limit steps kind s = some (v, s') →
      Breaks src limit (.value kind) 0 s s' := by
    intro kind s h
    obtain ⟨⟨w, s₁⟩, hv, hsettle⟩ := Option.map_eq_some_iff.mp h
    obtain ⟨-, rfl⟩ := Prod.mk.inj hsettle
    exact (breaks_of_answer steps).1 hv hs (Nat.zero_le limit)
  cases announced with
  | some kind => exact settled h
  | none =>
      rw [whole?, next?] at h
      rcases hpeek : src.peek s with ⟨kind, s₁⟩
      rw [hpeek] at h
      refine ⟨kind, s₁, hpeek, ?_⟩
      dsimp only at h
      split at h
      · next hs₁ => exact .inl ⟨hs₁, (Prod.mk.inj (Option.some.inj h)).2.symm⟩
      · next hs₁ => exact .inr ⟨by simpa using hs₁, settled h⟩

end Build

namespace TokenSource.Bounded

variable {σ : Type} {src : TokenSource σ} {measure : σ → Nat}

/-- Where building a value goes wrong, building it from a bounded source ends. -/
theorem build_of_breaks (bounded : src.Bounded measure) {limit : Nat} {s s' : Session σ}
    (h : Build.RunBreaks src limit none s s') : bounded.build limit s = (.null, s') := by
  have hsome : Build.whole? src limit (bounded.steps s) none s = some (bounded.build limit s) :=
    (Option.some_get _).symm
  exact h.eq_of_whole? hsome

end TokenSource.Bounded

end JsonTree
