import JsonTree.Proofs.Calls
import JsonTree.Proofs.Rejection
import JsonTree.Proofs.Replay
import JsonTree.Proofs.RoundTrip

/-!
# The limit — a lower limit only cuts a run short

Two runs of the builder over one source differ in how deep arrays and objects may be nested.
`ComesTo src level stage depth s op moment` says that a run which allows for the level comes to an
array or object at that level: in the session `moment`, by the operation `op`, for the first time
and before it is opened.  Up to there the limit has no part in the run, and there it decides.

* `value_eq_of_not_comesTo`: a run that does not come to the level goes on alike under every limit
  that is not below it.
* `ComesTo.breaks`: with the limit just below the level, building goes wrong at that moment.
* `ComesTo.call_made`: with a higher limit, the array or object is opened at that moment.
* `limit_only_cuts`: the three for whole runs, with the calls made; and what is built keeps to its
  limit.
-/

namespace JsonTree

namespace Build

variable {σ : Type}

/-- Building comes to an array or object at the level, for the first time, and before it is opened;
the part is inside as many arrays and objects as `depth` says. -/
inductive ComesTo (src : TokenSource σ) (level : Nat) :
    Stage → (depth : Nat) → Session σ → Operation → Session σ → Prop where
  | arrayHere {s : Session σ} {depth : Nat} : depth + 1 = level →
      ComesTo src level (.value .array) depth s .openArray s
  | objectHere {s : Session σ} {depth : Nat} : depth + 1 = level →
      ComesTo src level (.value .object) depth s .openObject s
  | array {s s₁ moment : Session σ} {next : Option Kind} {depth : Nat} {op : Operation} :
      depth + 1 < level → src.openArray s = (next, s₁) → s₁.failed = false →
      ComesTo src level (.items next) (depth + 1) s₁ op moment →
      ComesTo src level (.value .array) depth s op moment
  | object {s s₁ moment : Session σ} {next : Option StringToken} {depth : Nat} {op : Operation} :
      depth + 1 < level → src.openObject s = (next, s₁) → s₁.failed = false →
      ComesTo src level (.members next) (depth + 1) s₁ op moment →
      ComesTo src level (.value .object) depth s op moment
  | item {s moment : Session σ} {kind : Kind} {depth : Nat} {op : Operation} :
      ComesTo src level (.value kind) depth s op moment →
      ComesTo src level (.items (some kind)) depth s op moment
  | itemBehind {s s₁ s₂ moment : Session σ} {kind : Kind} {v : Value} {next : Option Kind}
      {d depth : Nat} {op : Operation} : Hands src (.value kind v) d s s₁ → depth + d < level →
      src.nextItem s₁ = (next, s₂) → s₂.failed = false →
      ComesTo src level (.items next) depth s₂ op moment →
      ComesTo src level (.items (some kind)) depth s op moment
  | member {s s₁ moment : Session σ} {token : StringToken} {kind : Kind} {depth : Nat}
      {op : Operation} : src.peek s = (kind, s₁) → s₁.failed = false →
      ComesTo src level (.value kind) depth s₁ op moment →
      ComesTo src level (.members (some token)) depth s op moment
  | memberBehind {s s₁ s₂ s₃ moment : Session σ} {token : StringToken} {kind : Kind} {v : Value}
      {next : Option StringToken} {d depth : Nat} {op : Operation} : src.peek s = (kind, s₁) →
      s₁.failed = false → Hands src (.value kind v) d s₁ s₂ → depth + d < level →
      src.nextKey s₂ = (next, s₃) → s₃.failed = false →
      ComesTo src level (.members next) depth s₃ op moment →
      ComesTo src level (.members (some token)) depth s op moment

/-- The run over a whole value, one that has been announced or the one that comes next, comes to an
array or object at the level. -/
def RunComesTo (src : TokenSource σ) (level : Nat) (announced : Option Kind) (s : Session σ)
    (op : Operation) (moment : Session σ) : Prop :=
  match announced with
  | some kind => ComesTo src level (.value kind) 0 s op moment
  | none => ∃ kind s₁, src.peek s = (kind, s₁) ∧ s₁.failed = false ∧
      ComesTo src level (.value kind) 0 s₁ op moment

variable {src : TokenSource σ} {limit limit' : Nat}

/-! ### Up to the level the limit has no part in the run -/

/-- **A run that does not come to the level goes on alike under every limit not below it.** -/
theorem value_eq_of_not_comesTo (h : limit < limit') (steps : Nat) :
    (∀ kind depth s, depth ≤ limit →
      (∀ op moment, ¬ ComesTo src (limit + 1) (.value kind) depth s op moment) →
      value src limit steps kind depth s = value src limit' steps kind depth s) ∧
    (∀ depth done next s, depth ≤ limit →
      (∀ op moment, ¬ ComesTo src (limit + 1) (.items next) depth s op moment) →
      items src limit steps depth done next s = items src limit' steps depth done next s) ∧
    ∀ depth done next s, depth ≤ limit →
      (∀ op moment, ¬ ComesTo src (limit + 1) (.members next) depth s op moment) →
      members src limit steps depth done next s = members src limit' steps depth done next s := by
  -- on the steps; a part without such a moment has none in the parts it is made of
  induction steps with
  | zero => exact ⟨fun _ _ _ _ _ => rfl, fun _ _ _ _ _ _ => rfl, fun _ _ _ _ _ _ => rfl⟩
  | succ steps ih =>
      obtain ⟨ihValue, ihItems, ihMembers⟩ := ih
      refine ⟨?_, ?_, ?_⟩
      · intro kind depth s hle hno
        by_cases ha : kind = .array
        · subst ha
          have hlt : depth + 1 ≠ limit + 1 := fun he => hno _ _ (.arrayHere he)
          rcases hopen : src.openArray s with ⟨next, s₁⟩
          rw [value, value, if_neg (by omega), if_neg (by omega), hopen]
          cases hs₁ : s₁.failed with
          | true => simp only [hs₁, ↓reduceIte]
          | false =>
              simp only [hs₁, Bool.false_eq_true, ↓reduceIte]
              exact ihItems _ _ _ _ (by omega) fun op moment hcomes =>
                hno op moment (.array (by omega) hopen hs₁ hcomes)
        by_cases ho : kind = .object
        · subst ho
          have hlt : depth + 1 ≠ limit + 1 := fun he => hno _ _ (.objectHere he)
          rcases hopen : src.openObject s with ⟨next, s₁⟩
          rw [value, value, if_neg (by omega), if_neg (by omega), hopen]
          cases hs₁ : s₁.failed with
          | true => simp only [hs₁, ↓reduceIte]
          | false =>
              simp only [hs₁, Bool.false_eq_true, ↓reduceIte]
              exact ihMembers _ _ _ _ (by omega) fun op moment hcomes =>
                hno op moment (.object (by omega) hopen hs₁ hcomes)
        · rw [value_scalar ha ho, value_scalar ha ho]
      · intro depth done next s hle hno
        cases next with
        | none => rfl
        | some kind =>
            rw [items, items, ← ihValue kind depth s hle fun op moment hcomes =>
              hno op moment (.item hcomes)]
            rcases hv : value src limit steps kind depth s with _ | ⟨v, s₁⟩
            · rfl
            cases hs₁ : s₁.failed with
            | true => simp only [hs₁, ↓reduceIte]
            | false =>
                obtain ⟨d, hands, hd⟩ := (hands_of_answer steps).1 hv hs₁ hle
                rcases hnext : src.nextItem s₁ with ⟨next, s₂⟩
                cases hs₂ : s₂.failed with
                | true => simp only [hs₁, hs₂, hnext, Bool.false_eq_true, ↓reduceIte]
                | false =>
                    simp only [hs₁, hs₂, hnext, Bool.false_eq_true, ↓reduceIte]
                    exact ihItems _ _ _ _ hle fun op moment hcomes =>
                      hno op moment (.itemBehind hands (by omega) hnext hs₂ hcomes)
      · intro depth done next s hle hno
        cases next with
        | none => rfl
        | some token =>
            rcases hpeek : src.peek s with ⟨kind, s₁⟩
            rw [members, members, hpeek]
            cases hs₁ : s₁.failed with
            | true => simp only [hs₁, ↓reduceIte]
            | false =>
                simp only [hs₁, Bool.false_eq_true, ↓reduceIte]
                rw [← ihValue kind depth s₁ hle fun op moment hcomes =>
                  hno op moment (.member hpeek hs₁ hcomes)]
                rcases hv : value src limit steps kind depth s₁ with _ | ⟨v, s₂⟩
                · rfl
                cases hs₂ : s₂.failed with
                | true => simp only [hs₂, ↓reduceIte]
                | false =>
                    obtain ⟨d, hands, hd⟩ := (hands_of_answer steps).1 hv hs₂ hle
                    rcases hnext : src.nextKey s₂ with ⟨next, s₃⟩
                    cases hs₃ : s₃.failed with
                    | true => simp only [hs₂, hs₃, hnext, Bool.false_eq_true, ↓reduceIte]
                    | false =>
                        simp only [hs₂, hs₃, hnext, Bool.false_eq_true, ↓reduceIte]
                        exact ihMembers _ _ _ _ hle fun op moment hcomes => hno op moment
                          (.memberBehind hpeek hs₁ hands (by omega) hnext hs₃ hcomes)

theorem whole?_eq_of_not_comesTo (h : limit < limit') (steps : Nat) {announced : Option Kind}
    {s : Session σ}
    (hno : ∀ op moment, ¬ RunComesTo src (limit + 1) announced s op moment) :
    whole? src limit steps announced s = whole? src limit' steps announced s := by
  have hvalue : ∀ kind depth s, depth ≤ limit →
      (∀ op moment, ¬ ComesTo src (limit + 1) (.value kind) depth s op moment) →
      value src limit steps kind depth s = value src limit' steps kind depth s :=
    (value_eq_of_not_comesTo h steps).1
  cases announced with
  | some kind =>
      rw [whole?, whole?, announced?, announced?, hvalue kind 0 s (Nat.zero_le _) hno]
  | none =>
      rcases hpeek : src.peek s with ⟨kind, s₁⟩
      rw [whole?, whole?, next?, next?, hpeek]
      cases hs₁ : s₁.failed with
      | true => simp only [hs₁, ↓reduceIte]
      | false =>
          simp only [hs₁, Bool.false_eq_true, ↓reduceIte]
          rw [announced?, announced?, hvalue kind 0 s₁ (Nat.zero_le _) fun op moment hcomes =>
            hno op moment ⟨kind, s₁, hpeek, hs₁, hcomes⟩]

/-! ### At the level the limit decides -/

namespace ComesTo

variable {level depth : Nat} {stage : Stage} {s moment : Session σ} {op : Operation}

/-- No error has been recorded up to the moment. -/
theorem not_failed (h : ComesTo src level stage depth s op moment) :
    s.failed = false → moment.failed = false := by
  induction h with
  | arrayHere _ | objectHere _ => exact id
  | array _ _ hs _ ih | object _ _ hs _ ih => exact fun _ => ih hs
  | item _ ih => exact ih
  | itemBehind _ _ _ hs _ ih => exact fun _ => ih hs
  | member _ hs _ ih => exact fun _ => ih hs
  | memberBehind _ _ _ _ _ hs _ ih => exact fun _ => ih hs

/-- **With the limit just below the level, building goes wrong at the moment.** -/
theorem breaks (h : ComesTo src (limit + 1) stage depth s op moment) :
    Breaks src limit stage depth s (fail src moment .nestingTooDeep) := by
  induction h with
  | arrayHere he => exact .deep (.inl rfl) (by omega)
  | objectHere he => exact .deep (.inr rfl) (by omega)
  | array hlt hopen hs _ ih => exact .array (by omega) hopen hs ih
  | object hlt hopen hs _ ih => exact .object (by omega) hopen hs ih
  | item _ ih => exact .item ih
  | itemBehind hands hlt hnext hs _ ih => exact .itemBehind hands (by omega) hnext hs ih
  | member hpeek hs _ ih => exact .member hpeek hs ih
  | memberBehind hpeek hs hands hlt hnext hs' _ ih =>
      exact .memberBehind hpeek hs hands (by omega) hnext hs' ih

end ComesTo

namespace RunComesTo

variable {announced : Option Kind} {s moment : Session σ} {op : Operation}

theorem not_failed {level : Nat} (h : RunComesTo src level announced s op moment)
    (hs : s.failed = false) : moment.failed = false := by
  cases announced with
  | some kind => exact ComesTo.not_failed h hs
  | none =>
      obtain ⟨kind, s₁, -, hs₁, hcomes⟩ := h
      exact hcomes.not_failed hs₁

/-- **With the limit just below the level, the run goes wrong at the moment.** -/
theorem breaks (h : RunComesTo src (limit + 1) announced s op moment) :
    RunBreaks src limit announced s (fail src moment .nestingTooDeep) := by
  cases announced with
  | some kind => exact ComesTo.breaks h
  | none =>
      obtain ⟨kind, s₁, hpeek, hs₁, hcomes⟩ := h
      exact ⟨kind, s₁, hpeek, .inr ⟨hs₁, hcomes.breaks⟩⟩

end RunComesTo

/-! ### A higher limit lets the run go on -/

/-- The log keeps what it begins with. -/
theorem simulates_behind (src : TokenSource σ) (front : List (Call σ)) :
    Simulates (logged src) (logged src) fun s t => s = t ∧ front <+: s.state.2 := by
  have keeps : ∀ {s t : Session (Logged σ)}, s = t ∧ front <+: s.state.2 → ∀ op,
      record src op s = record src op t ∧ front <+: (record src op s).state.2 :=
    fun h op => ⟨congrArg (record src op) h.1, h.2.trans (List.prefix_append _ _)⟩
  exact {
    failed := fun h => congrArg Session.failed h.1
    document := fun h => by rw [h.1]
    fail := fun h _ code => ⟨by rw [h.1], h.2⟩
    peek := fun h _ => ⟨by rw [h.1], keeps h .peek⟩
    readNull := fun h _ => keeps h .readNull
    readBool := fun h _ kind => ⟨by rw [h.1], keeps h (.readBool kind)⟩
    readString := fun h _ => ⟨by rw [h.1], keeps h .readString⟩
    openArray := fun h _ => ⟨by rw [h.1], keeps h .openArray⟩
    nextItem := fun h _ => ⟨by rw [h.1], keeps h .nextItem⟩
    openObject := fun h _ => ⟨by rw [h.1], keeps h .openObject⟩
    nextKey := fun h _ => ⟨by rw [h.1], keeps h .nextKey⟩
    readInteger := fun h _ => ⟨by rw [h.1], keeps h .readInteger⟩
    readFloat := fun h _ => ⟨by rw [h.1], keeps h .readFloat⟩ }

/-- What the log holds behind the call of an operation. -/
def CallMade (op : Operation) (moment s : Session (Logged σ)) : Prop :=
  moment.state.2 ++ [⟨op, bare moment⟩] <+: s.state.2

/-- A run over the part makes the call in the moment. -/
def MakesCall (src : TokenSource σ) (limit : Nat) (op : Operation)
    (moment : Session (Logged σ)) : Stage → Nat → Session (Logged σ) → Prop
  | .value kind, depth, s => ∀ steps r, value (logged src) limit steps kind depth s = some r →
      CallMade op moment r.2
  | .items next, depth, s => ∀ done steps r,
      items (logged src) limit steps depth done next s = some r → CallMade op moment r.2
  | .members next, depth, s => ∀ done steps r,
      members (logged src) limit steps depth done next s = some r → CallMade op moment r.2

/-- A run that goes on from an operation has made its call. -/
theorem callMade_of_rel {op : Operation} {moment : Session (Logged σ)}
    {x : Option (Value × Session (Logged σ))} {r : Value × Session (Logged σ)}
    (h : Option.Rel (Matches fun s t =>
      s = t ∧ moment.state.2 ++ [⟨op, bare moment⟩] <+: s.state.2) x x)
    (hr : x = some r) : CallMade op moment r.2 := by
  subst hr
  cases h with
  | some h => exact h.2.2

/-- **With a limit that allows for the level, the array or object is opened at the moment.** -/
theorem ComesTo.call_made {level : Nat} (hlevel : level ≤ limit) {stage : Stage} {depth : Nat}
    {s moment : Session (Logged σ)} {op : Operation}
    (h : ComesTo (logged src) level stage depth s op moment) :
    MakesCall src limit op moment stage depth s := by
  have sim := fun (op : Operation) (moment : Session (Logged σ)) =>
    simulates_behind src (moment.state.2 ++ [⟨op, bare moment⟩])
  -- on the way to the moment; once the call has been made, the log keeps it
  induction h with
  | @arrayHere s depth he =>
      intro steps r hr
      cases steps with
      | zero => cases hr
      | succ steps =>
          rw [value, if_neg (by omega)] at hr
          exact callMade_of_rel ((sim .openArray s).unless_failed ⟨rfl, List.prefix_refl _⟩
            fun hs => ((sim .openArray s).answer limit steps).2.1 _ _ _
              ⟨rfl, List.prefix_refl _⟩ hs) hr
  | @objectHere s depth he =>
      intro steps r hr
      cases steps with
      | zero => cases hr
      | succ steps =>
          rw [value, if_neg (by omega)] at hr
          exact callMade_of_rel ((sim .openObject s).unless_failed ⟨rfl, List.prefix_refl _⟩
            fun hs => ((sim .openObject s).answer limit steps).2.2 _ _ _
              ⟨rfl, List.prefix_refl _⟩ hs) hr
  | array hlt hopen hs _ ih =>
      intro steps r hr
      cases steps with
      | zero => cases hr
      | succ steps =>
          rw [value, if_neg (by omega), hopen] at hr
          simp only [hs, Bool.false_eq_true, ↓reduceIte] at hr
          exact ih _ _ _ hr
  | object hlt hopen hs _ ih =>
      intro steps r hr
      cases steps with
      | zero => cases hr
      | succ steps =>
          rw [value, if_neg (by omega), hopen] at hr
          simp only [hs, Bool.false_eq_true, ↓reduceIte] at hr
          exact ih _ _ _ hr
  | @item s moment kind depth op _ ih =>
      intro done steps r hr
      cases steps with
      | zero => cases hr
      | succ steps =>
          rw [items] at hr
          rcases hv : value (logged src) limit steps kind depth s with _ | ⟨v, s₁⟩
          · rw [hv] at hr
            cases hr
          have h₁ : CallMade op moment s₁ := ih _ _ hv
          rw [hv] at hr
          refine callMade_of_rel ((sim op moment).unless_failed ⟨rfl, h₁⟩ fun hs₁ => ?_) hr
          have h₂ := ((sim op moment).nextItem ⟨rfl, h₁⟩ hs₁).2
          exact (sim op moment).unless_failed h₂ fun hs₂ =>
            ((sim op moment).answer limit steps).2.1 _ _ _ h₂ hs₂
  | @itemBehind s s₁ s₂ moment kind v next d depth op hands hlt hnext hs _ ih =>
      intro done steps r hr
      cases steps with
      | zero => cases hr
      | succ steps =>
          rw [items] at hr
          cases hv : value (logged src) limit steps kind depth s with
          | none =>
              rw [hv] at hr
              cases hr
          | some r' =>
              obtain rfl := hands.builds depth steps r' (by omega) hv
              simp only [hv, hands.value_ends, hnext, hs, Bool.false_eq_true, ↓reduceIte] at hr
              exact ih _ _ _ hr
  | @member s s₁ moment token kind depth op hpeek hs _ ih =>
      intro done steps r hr
      cases steps with
      | zero => cases hr
      | succ steps =>
          rw [members, hpeek] at hr
          simp only [hs, Bool.false_eq_true, ↓reduceIte] at hr
          rcases hv : value (logged src) limit steps kind depth s₁ with _ | ⟨v, s₂⟩
          · rw [hv] at hr
            cases hr
          have h₂ : CallMade op moment s₂ := ih _ _ hv
          rw [hv] at hr
          refine callMade_of_rel ((sim op moment).unless_failed ⟨rfl, h₂⟩ fun hs₂ => ?_) hr
          have h₃ := ((sim op moment).nextKey ⟨rfl, h₂⟩ hs₂).2
          exact (sim op moment).unless_failed h₃ fun hs₃ =>
            ((sim op moment).answer limit steps).2.2 _ _ _ h₃ hs₃
  | @memberBehind s s₁ s₂ s₃ moment token kind v next d depth op hpeek hs hands hlt hnext hs' _
      ih =>
      intro done steps r hr
      cases steps with
      | zero => cases hr
      | succ steps =>
          rw [members, hpeek] at hr
          simp only [hs, Bool.false_eq_true, ↓reduceIte] at hr
          cases hv : value (logged src) limit steps kind depth s₁ with
          | none =>
              rw [hv] at hr
              cases hr
          | some r' =>
              obtain rfl := hands.builds depth steps r' (by omega) hv
              simp only [hv, hands.value_ends, hnext, hs', Bool.false_eq_true, ↓reduceIte] at hr
              exact ih _ _ _ hr

theorem RunComesTo.call_made {level : Nat} (hlevel : level ≤ limit) {announced : Option Kind}
    {s moment : Session (Logged σ)} {op : Operation}
    (h : RunComesTo (logged src) level announced s op moment) {steps : Nat}
    {r : Value × Session (Logged σ)} (hr : whole? (logged src) limit steps announced s = some r) :
    CallMade op moment r.2 := by
  have settled : ∀ {kind : Kind} {s : Session (Logged σ)},
      ComesTo (logged src) level (.value kind) 0 s op moment →
      announced? (logged src) limit steps kind s = some r → CallMade op moment r.2 := by
    intro kind s hcomes hr
    obtain ⟨r', hv, rfl⟩ := Option.map_eq_some_iff.mp hr
    exact hcomes.call_made hlevel steps r' hv
  cases announced with
  | some kind => exact settled h hr
  | none =>
      obtain ⟨kind, s₁, hpeek, hs₁, hcomes⟩ := h
      rw [whole?, next?, hpeek] at hr
      simp only [hs₁, Bool.false_eq_true, ↓reduceIte] at hr
      exact settled hcomes hr

/-! ### What is built keeps to its limit -/

/-- No value in the part is nested deeper. -/
def Part.DepthLe (d : Nat) : Part → Prop
  | .value _ v => v.depth ≤ d
  | .items _ vs => ∀ v ∈ vs, v.depth ≤ d
  | .members _ ms => ∀ m ∈ ms, m.2.depth ≤ d

/-- **What is handed out is nested as deep as its tokens, at most.** -/
theorem Hands.depth_le {part : Part} {d : Nat} {s s' : Session σ} (h : Hands src part d s s') :
    part.DepthLe d := by
  induction h with
  | null _ _ | boolean _ _ _ | string _ _ | integer _ _ | floating _ _ _ _ | nonFinite _ _ _ =>
      exact Nat.le_refl 0
  | array _ _ _ ih => exact Nat.succ_le_succ (Value.itemsDepth_le_iff.mpr ih)
  | @object s s₁ s' next ms depth _ _ _ ih =>
      have hall : ∀ m ∈ Members.ofList ms, True ∧ m.2.depth ≤ depth :=
        @Members.of_mem_ofList (fun _ => True) (fun v => v.depth ≤ depth) ms
          fun m hm => ⟨trivial, ih m hm⟩
      exact Nat.succ_le_succ (Value.membersDepth_le_iff.mpr fun m hm => (hall m hm).2)
  | itemsEnd _ => exact fun _ hv => nomatch hv
  | membersEnd _ => exact fun _ hm => nomatch hm
  | item _ _ _ _ ihValue ihItems =>
      intro v hv
      rcases List.mem_cons.mp hv with rfl | hv
      · exact Nat.le_trans ihValue (Nat.le_max_left _ _)
      · exact Nat.le_trans (ihItems v hv) (Nat.le_max_right _ _)
  | member _ _ _ _ _ _ ihValue ihMembers =>
      intro m hm
      rcases List.mem_cons.mp hm with rfl | hm
      · exact Nat.le_trans ihValue (Nat.le_max_left _ _)
      · exact Nat.le_trans (ihMembers m hm) (Nat.le_max_right _ _)

theorem HandsOut.depth_le {announced : Option Kind} {v : Value} {d : Nat} {s s' : Session σ}
    (h : HandsOut src announced v d s s') : v.depth ≤ d := by
  cases announced with
  | some kind => exact Hands.depth_le h
  | none =>
      obtain ⟨kind, s₁, -, -, hands⟩ := h
      exact hands.depth_le

end Build

/-- What is not nested at all is a scalar. -/
theorem Value.isScalar_of_depth {v : Value} (h : v.depth ≤ 0) : v.IsScalar := by
  cases v with
  | array _ | object _ => exact absurd h (Nat.not_succ_le_zero _)
  | _ => trivial

/-- A document that is accepted is accepted under every higher limit, with the same value. -/
theorem parse_of_limit_le {source : Slice} {limit limit' : Nat} {requireEnd allowNonFinite : Bool}
    {v : Value} (h : limit ≤ limit')
    (hv : parse source ⟨limit, requireEnd, allowNonFinite⟩ = ⟨v, none⟩) :
    parse source ⟨limit', requireEnd, allowNonFinite⟩ = ⟨v, none⟩ := by
  obtain ⟨d, back, hbytes, hends, hstops, hreq, hwithin, rfl⟩ := parse_eq_ok_iff.mp hv
  exact parse_eq_ok_iff.mpr ⟨d, back, hbytes, hends, hstops, hreq,
    ⟨hwithin.numbers, Nat.le_trans hwithin.depth h⟩, rfl⟩

namespace Build

variable {σ : Type}

/-- **A lower limit only cuts a run short.**  Let a builder be run over any source, with no error on
record.  If a run never comes to an array or object just beyond the lower limit, then both limits
give the same answer with the same calls made, however many steps are allowed.  If it does, then
with the lower limit the run ends at the first such moment: its calls are those made before, the
error is recorded at the source's position, and the answer is null; with the higher limit the same
calls are made, and then the array or object is opened.  So what is built without an error is not
nested beyond the limit, is a scalar when the limit is zero, and is built under the higher limit as
well. -/
theorem limit_only_cuts (src : TokenSource σ) {limit limit' : Nat} (h : limit < limit')
    (announced : Option Kind) (state : σ) :
    (∀ steps,
      (∀ op moment, ¬ RunComesTo (logged src) (limit + 1) announced (Logged.start state) op
        moment) →
      whole? (logged src) limit steps announced (Logged.start state) =
        whole? (logged src) limit' steps announced (Logged.start state)) ∧
    (∀ op moment,
      RunComesTo (logged src) (limit + 1) announced (Logged.start state) op moment →
      (∃ n, ∀ steps, n ≤ steps →
        (whole? (logged src) limit steps announced (Logged.start state)).isSome) ∧
      (∀ steps v s, whole? (logged src) limit steps announced (Logged.start state) =
          some (v, s) →
        v = .null ∧ s.state = moment.state ∧
          s.fault = some (Error.locate (src.document moment.state.1) .nestingTooDeep
            (src.position moment.state.1))) ∧
      ∀ steps v s, whole? (logged src) limit' steps announced (Logged.start state) =
          some (v, s) → ∃ calls, s.state.2 = moment.state.2 ++ ⟨op, bare moment⟩ :: calls) ∧
    (∀ steps v s, whole? src limit steps announced { state } = some (v, s) → s.failed = false →
      v.depth ≤ limit ∧ (limit = 0 → v.IsScalar) ∧
        whole? src limit' steps announced { state } = some (v, s)) ∧
    ∀ source requireEnd allowNonFinite v,
      parse source ⟨limit, requireEnd, allowNonFinite⟩ = ⟨v, none⟩ →
      v.depth ≤ limit ∧ parse source ⟨limit', requireEnd, allowNonFinite⟩ = ⟨v, none⟩ := by
  refine ⟨fun steps hno => whole?_eq_of_not_comesTo h steps hno, ?_, ?_, ?_⟩
  · intro op moment hcomes
    have hmoment : moment.fault = none := by
      have hs := hcomes.not_failed rfl
      rwa [Session.failed, Option.isSome_eq_false_iff, Option.isNone_iff_eq_none] at hs
    refine ⟨?_, ?_, ?_⟩
    · obtain ⟨n, hn⟩ := hcomes.breaks.settles
      exact ⟨n, fun steps hsteps => Option.isSome_of_eq_some (hn steps hsteps)⟩
    · intro steps v s hr
      obtain ⟨rfl, rfl⟩ := Prod.mk.inj (hcomes.breaks.eq_of_whole? hr)
      refine ⟨rfl, rfl, ?_⟩
      rw [fail, Session.fail, hmoment]
      rfl
    · intro steps v s hr
      obtain ⟨calls, hcalls⟩ := hcomes.call_made h hr
      exact ⟨calls, by rw [← hcalls, List.append_assoc, List.singleton_append]⟩
  · intro steps v s hr hs
    obtain ⟨d, hands, hd⟩ := handsOut_of_whole? hr hs
    have hdepth : v.depth ≤ limit := Nat.le_trans hands.depth_le hd
    refine ⟨hdepth, fun hzero => Value.isScalar_of_depth (hzero ▸ hdepth), ?_⟩
    rw [← whole?_eq_of_not_comesTo h steps, hr]
    -- at the level beyond the limit the run would have gone wrong
    intro op moment hcomes
    obtain ⟨rfl, rfl⟩ := Prod.mk.inj (hcomes.breaks.eq_of_whole? hr)
    rw [failed_fail] at hs
    cases hs
  · intro source requireEnd allowNonFinite v hv
    obtain ⟨d, -, -, -, -, -, hwithin, rfl⟩ := parse_eq_ok_iff.mp hv
    exact ⟨Nat.le_trans (Node.depth_value_le d.root) hwithin.depth,
      parse_of_limit_le (Nat.le_of_lt h) hv⟩

/-- An array that stands third, behind an empty one and inside an object. -/
def arrayInObject : Reader where
  source := .ofBytes 0 (Bytes.ofString "[[],\x7b\"a\":[0]\x7d]")

/-- Two levels do not take the array inside the object; six calls are made before it is met. -/
theorem limit_only_cuts_arrayInObject :
    2 < 3 ∧ ∃ moment,
      RunComesTo (logged Reader.tokens) 3 none (Logged.start arrayInObject) .openArray moment ∧
      moment.state.2.length = 6 ∧
      ∀ steps v s,
        whole? (logged Reader.tokens) 2 steps none (Logged.start arrayInObject) = some (v, s) →
        v = .null ∧ s.state = moment.state ∧ s.fault = some ⟨.nestingTooDeep, 9, 1, 10⟩ := by
  have hlt : 2 < 3 := by decide
  have hcomes : RunComesTo (logged Reader.tokens) 3 none (Logged.start arrayInObject)
      .openArray _ :=
    ⟨.array, _, rfl, rfl, .array (by decide) rfl rfl
      (.itemBehind (.array rfl rfl (.itemsEnd _)) (by decide) rfl rfl
        (.item (.object (by decide) rfl rfl (.member rfl rfl (.arrayHere rfl)))))⟩
  exact ⟨hlt, _, hcomes, rfl,
    ((limit_only_cuts Reader.tokens hlt none arrayInObject).2.1 _ _ hcomes).2.1⟩

end Build

end JsonTree
