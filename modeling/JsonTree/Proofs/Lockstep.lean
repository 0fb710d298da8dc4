import JsonTree.Proofs.Builder

/-!
# Lockstep — two runs of the builder over one source

Two runs from sessions that are related keep to related sessions, as long as every operation does
(`Lockstep`).  An operation may instead lose the first run: then it has recorded an error, or the
next operation does, and what becomes of the second run does not matter any more.  Where an array,
an object or a scalar is read, it has been announced, and the announcement may be relied on
(`Ready`).

* `Lockstep.answer`: one step of the builder after the other, by induction on the steps.
* `Lockstep.build`: over a bounded source the runs end in related sessions, or the first is lost.
-/

namespace JsonTree

namespace Build

variable {σ : Type}

/-- The first run is lost with an error, or both go on in related sessions; unless an error has been
recorded, their answers agree. -/
def KeepsUp {α : Type} (Together : Session σ → Session σ → Prop) (Lost : Session σ → Prop)
    (agree : α → α → Session σ → Prop) (x y : α × Session σ) : Prop :=
  x.2.failed = true ∧ Lost x.2 ∨
    Together x.2 y.2 ∧ (x.2.failed = false → agree x.1 y.1 x.2)

/-- The same kind is announced, and it can be relied on. -/
def SameKind (Ready : Kind → Session σ → Prop) (kind kind' : Kind) (s : Session σ) : Prop :=
  kind = kind' ∧ Ready kind s

/-- Both announce an item of one kind, which can be relied on, or both announce none. -/
def SameItem (Ready : Kind → Session σ → Prop) (next next' : Option Kind) (s : Session σ) : Prop :=
  next = next' ∧ ∀ kind ∈ next, Ready kind s

/-- Neither announces an item. -/
theorem SameItem.none {Ready : Kind → Session σ → Prop} {s : Session σ} :
    SameItem Ready none none s :=
  ⟨rfl, fun _ hkind => absurd hkind (Option.not_mem_none _)⟩

/-- Both announce a key, or both announce none. -/
def SameKey (next next' : Option StringToken) (_ : Session σ) : Prop :=
  next.isSome = next'.isSome

/-- The operations keep two runs together until the first of them is lost. -/
structure Lockstep (src : TokenSource σ) (Together : Session σ → Session σ → Prop)
    (Ready : Kind → Session σ → Prop) (Lost : Session σ → Prop) : Prop where
  failed : ∀ {s t}, Together s t → s.failed = t.failed
  tooDeep : ∀ {s t} kind, Together s t → s.failed = false → Ready kind s →
    Together (fail src s .nestingTooDeep) (fail src t .nestingTooDeep)
  scalar : ∀ {s t} kind, kind ≠ .array → kind ≠ .object → Together s t → s.failed = false →
    Ready kind s →
    Together (scalar src kind s).2 (scalar src kind t).2 ∨ Lost (scalar src kind s).2
  peek : ∀ {s t}, Together s t → s.failed = false →
    KeepsUp Together Lost (SameKind Ready) (src.peek s) (src.peek t)
  openArray : ∀ {s t}, Together s t → s.failed = false → Ready .array s →
    KeepsUp Together Lost (SameItem Ready) (src.openArray s) (src.openArray t)
  nextItem : ∀ {s t}, Together s t → s.failed = false →
    KeepsUp Together Lost (SameItem Ready) (src.nextItem s) (src.nextItem t)
  openObject : ∀ {s t}, Together s t → s.failed = false → Ready .object s →
    KeepsUp Together Lost SameKey (src.openObject s) (src.openObject t)
  nextKey : ∀ {s t}, Together s t → s.failed = false →
    KeepsUp Together Lost SameKey (src.nextKey s) (src.nextKey t)
  lost_nextItem : ∀ {s}, Lost s → s.failed = false →
    (src.nextItem s).2.failed = true ∧ Lost (src.nextItem s).2
  lost_nextKey : ∀ {s}, Lost s → s.failed = false →
    (src.nextKey s).2.failed = true ∧ Lost (src.nextKey s).2

/-- If both runs come to an end, they end in related sessions, or the first is lost. -/
def EndTogether (Together : Session σ → Session σ → Prop) (Lost : Session σ → Prop)
    (x y : Option (Value × Session σ)) : Prop :=
  ∀ r r', x = some r → y = some r' → Together r.2 r'.2 ∨ Lost r.2

namespace EndTogether

variable {Together : Session σ → Session σ → Prop} {Lost : Session σ → Prop}
  {x y : Option (Value × Session σ)}

theorem none_left : EndTogether Together Lost none y := by
  intro r r' hr
  cases hr

theorem none_right : EndTogether Together Lost x none := by
  intro r r' _ hr'
  cases hr'

theorem some {r r' : Value × Session σ} (h : Together r.2 r'.2 ∨ Lost r.2) :
    EndTogether Together Lost (some r) (some r') := by
  intro q q' hq hq'
  rw [← Option.some.inj hq, ← Option.some.inj hq']
  exact h

end EndTogether

namespace Lockstep

variable {src : TokenSource σ} {Together : Session σ → Session σ → Prop}
  {Ready : Kind → Session σ → Prop} {Lost : Session σ → Prop}

/-- A run that is lost with an error ends there. -/
theorem endTogether_of_lost {s : Session σ} {rest y : Option (Value × Session σ)}
    (hf : s.failed = true) (h : Lost s) :
    EndTogether Together Lost (if s.failed then some (.null, s) else rest) y := by
  intro r r' hr _
  rw [if_pos hf] at hr
  rw [← Option.some.inj hr]
  exact .inr h

/-- Both runs end where an error has been recorded, or both go on. -/
theorem unless_failed (lock : Lockstep src Together Ready Lost) {s t : Session σ}
    {rest rest' : Option (Value × Session σ)} (h : Together s t)
    (hrest : s.failed = false → EndTogether Together Lost rest rest') :
    EndTogether Together Lost (if s.failed then some (.null, s) else rest)
      (if t.failed then some (.null, t) else rest') := by
  rw [← lock.failed h]
  cases hf : s.failed with
  | true => exact .some (.inl h)
  | false => exact hrest hf

/-- Behind an operation both runs end, or both go on. -/
theorem behind (lock : Lockstep src Together Ready Lost) {α : Type}
    {agree : α → α → Session σ → Prop} {x y : α × Session σ}
    {rest rest' : Option (Value × Session σ)} (h : KeepsUp Together Lost agree x y)
    (hrest : Together x.2 y.2 → x.2.failed = false → agree x.1 y.1 x.2 →
      EndTogether Together Lost rest rest') :
    EndTogether Together Lost (if x.2.failed then some (.null, x.2) else rest)
      (if y.2.failed then some (.null, y.2) else rest') := by
  rcases h with ⟨hf, hlost⟩ | ⟨htogether, hagree⟩
  · exact endTogether_of_lost hf hlost
  · exact lock.unless_failed htogether fun hs => hrest htogether hs (hagree hs)

/-- Behind a value both runs end, or both go on; a run that is lost there without an error is lost
with one behind the next operation. -/
theorem behind_value (lock : Lockstep src Together Ready Lost) {α : Type}
    {agree : α → α → Session σ → Prop} {s t : Session σ} {next : Session σ → α × Session σ}
    {rest rest' : Option (Value × Session σ)} (h : Together s t ∨ Lost s)
    (hlost : Lost s → s.failed = false → (next s).2.failed = true ∧ Lost (next s).2)
    (hnext : Together s t → s.failed = false →
      KeepsUp Together Lost agree (next s) (next t))
    (hrest : Together (next s).2 (next t).2 → (next s).2.failed = false →
      agree (next s).1 (next t).1 (next s).2 → EndTogether Together Lost rest rest') :
    EndTogether Together Lost
      (if s.failed then some (.null, s)
        else if (next s).2.failed then some (.null, (next s).2) else rest)
      (if t.failed then some (.null, t)
        else if (next t).2.failed then some (.null, (next t).2) else rest') := by
  rcases h with h | h
  · exact lock.unless_failed h fun hs => lock.behind (hnext h hs) hrest
  · by_cases hf : s.failed = true
    · exact endTogether_of_lost hf h
    · rw [if_neg hf]
      obtain ⟨hf', h'⟩ := hlost h (by simpa using hf)
      exact endTogether_of_lost hf' h'

/-- **The runs keep together step by step**, whatever steps either is allowed. -/
theorem answer (lock : Lockstep src Together Ready Lost) (limit m : Nat) :
    (∀ n kind depth {s t}, Together s t → s.failed = false → Ready kind s →
      EndTogether Together Lost (value src limit m kind depth s)
        (value src limit n kind depth t)) ∧
    (∀ n depth done done' next {s t}, Together s t → s.failed = false →
      (∀ kind ∈ next, Ready kind s) →
      EndTogether Together Lost (items src limit m depth done next s)
        (items src limit n depth done' next t)) ∧
    ∀ n depth done done' next next' {s t}, Together s t → s.failed = false →
      next.isSome = next'.isSome →
      EndTogether Together Lost (members src limit m depth done next s)
        (members src limit n depth done' next' t) := by
  -- on the steps of the first run; at each operation both runs end there, or both go on together
  induction m with
  | zero => exact ⟨fun _ _ _ _ _ _ _ _ => .none_left, fun _ _ _ _ _ _ _ _ _ _ => .none_left,
      fun _ _ _ _ _ _ _ _ _ _ _ => .none_left⟩
  | succ m ih =>
      obtain ⟨ihValue, ihItems, ihMembers⟩ := ih
      refine ⟨?_, ?_, ?_⟩
      · intro n kind depth s t h hs hready
        cases n with
        | zero => exact .none_right
        | succ n =>
            have hdeep : EndTogether Together Lost (some (.null, fail src s .nestingTooDeep))
                (some (.null, fail src t .nestingTooDeep)) :=
              .some (.inl (lock.tooDeep kind h hs hready))
            by_cases ha : kind = .array
            · subst ha
              rw [value, value]
              split
              · exact hdeep
              · refine lock.behind (lock.openArray h hs hready) fun h₁ hs₁ hnext => ?_
                rw [← hnext.1]
                exact ihItems n (depth + 1) [] [] _ h₁ hs₁ hnext.2
            by_cases ho : kind = .object
            · subst ho
              rw [value, value]
              split
              · exact hdeep
              · refine lock.behind (lock.openObject h hs hready) fun h₁ hs₁ hnext => ?_
                exact ihMembers n (depth + 1) .empty .empty _ _ h₁ hs₁ hnext
            · rw [value_scalar ha ho, value_scalar ha ho]
              exact .some (lock.scalar kind ha ho h hs hready)
      · intro n depth done done' next s t h hs hready
        cases n with
        | zero => exact .none_right
        | succ n =>
            cases next with
            | none => exact .some (.inl h)
            | some kind =>
                rw [items, items]
                have hvalue := ihValue n kind depth h hs (hready kind rfl)
                generalize value src limit m kind depth s = x at hvalue ⊢
                generalize value src limit n kind depth t = y at hvalue ⊢
                rcases x with _ | ⟨v, s₁⟩
                · exact .none_left
                rcases y with _ | ⟨v', t₁⟩
                · exact .none_right
                refine lock.behind_value (hvalue _ _ rfl rfl) lock.lost_nextItem
                  (fun h₁ hs₁ => lock.nextItem h₁ hs₁) fun h₂ hs₂ hnext => ?_
                rw [← hnext.1]
                exact ihItems n depth _ _ _ h₂ hs₂ hnext.2
      · intro n depth done done' next next' s t h hs hsome
        cases n with
        | zero => exact .none_right
        | succ n =>
            rcases next with _ | token <;> rcases next' with _ | token'
            · exact .some (.inl h)
            · cases hsome
            · cases hsome
            rw [members, members]
            refine lock.behind (lock.peek h hs) fun h₁ hs₁ hkind => ?_
            rw [← hkind.1]
            have hvalue := ihValue n (src.peek s).1 depth h₁ hs₁ hkind.2
            generalize value src limit m (src.peek s).1 depth (src.peek s).2 = x at hvalue ⊢
            generalize value src limit n (src.peek s).1 depth (src.peek t).2 = y at hvalue ⊢
            rcases x with _ | ⟨v, s₂⟩
            · exact .none_left
            rcases y with _ | ⟨v', t₂⟩
            · exact .none_right
            refine lock.behind_value (hvalue _ _ rfl rfl) lock.lost_nextKey
              (fun h₂ hs₂ => lock.nextKey h₂ hs₂) fun h₃ hs₃ hnext => ?_
            exact ihMembers n depth _ _ _ _ h₃ hs₃ hnext

/-- The value that comes next is built in lockstep. -/
theorem next? (lock : Lockstep src Together Ready Lost) (limit m n : Nat) {s t : Session σ}
    (h : Together s t) (hs : s.failed = false) :
    EndTogether Together Lost (next? src limit m s) (next? src limit n t) := by
  rw [Build.next?, Build.next?]
  refine lock.behind (lock.peek h hs) fun h₁ hs₁ hkind => ?_
  rw [← hkind.1]
  intro r r' hr hr'
  obtain ⟨x, hx, rfl⟩ := Option.map_eq_some_iff.mp hr
  obtain ⟨y, hy, rfl⟩ := Option.map_eq_some_iff.mp hr'
  exact (lock.answer limit m).1 n _ 0 h₁ hs₁ hkind.2 x y hx hy

/-- **Over a bounded source the runs end in related sessions, or the first is lost.** -/
theorem build (lock : Lockstep src Together Ready Lost) {measure : σ → Nat}
    (bounded : src.Bounded measure) (limit : Nat) {s t : Session σ} (h : Together s t)
    (hs : s.failed = false) :
    Together (bounded.build limit s).2 (bounded.build limit t).2 ∨
      Lost (bounded.build limit s).2 :=
  lock.next? limit _ _ h hs _ _ (Option.some_get _).symm (Option.some_get _).symm

end Lockstep

end Build

end JsonTree
