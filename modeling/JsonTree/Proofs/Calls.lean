import JsonTree.Proofs.Outcome
import JsonTree.Token.Script
import Mathlib.Data.Option.Defs

/-!
# Calls — the builder stops at the first error

Sources are compared by a relation between their sessions (`Simulates`): where no error has been
recorded, both give the same answers and go on to related sessions.  Builders over such sources then
answer alike, however many steps they are allowed (`Simulates.whole?`).  Nothing is asked of the
sessions in which an error has been recorded, so this holds only because no call is made in one.

Two relations are of use.  Equality says that what a source would do behind an error has no part in
the answer.  The other relates a source to the one that keeps a log of its calls (`logged`), and
says what the log looks like: a `Trace`, each call being made where the one before it has ended, and
in no session with an error.

* `first_error_is_final`: a run that goes wrong does come to an end, with null and its first error;
  the log of a run is a trace; an error recorded by a call is that of the last call and is the error
  answered; with an error the answer is null, and without one it is all that was handed out.
-/

namespace JsonTree

namespace Build

variable {σ τ : Type}

/-! ### Sources that answer alike -/

/-- Equal answers in related sessions. -/
def Matches {α : Type} (R : Session σ → Session τ → Prop) (x : α × Session σ)
    (y : α × Session τ) : Prop :=
  x.1 = y.1 ∧ R x.2 y.2

/-- Where no error has been recorded the sources answer alike. -/
structure Simulates (src : TokenSource σ) (src' : TokenSource τ)
    (R : Session σ → Session τ → Prop) : Prop where
  failed : ∀ {s t}, R s t → s.failed = t.failed
  document : ∀ {s t}, R s t → src.document s.state = src'.document t.state
  fail : ∀ {s t}, R s t → s.failed = false → ∀ code, R (fail src s code) (fail src' t code)
  peek : ∀ {s t}, R s t → s.failed = false → Matches R (src.peek s) (src'.peek t)
  readNull : ∀ {s t}, R s t → s.failed = false → R (src.readNull s) (src'.readNull t)
  readBool : ∀ {s t}, R s t → s.failed = false → ∀ kind,
    Matches R (src.readBool kind s) (src'.readBool kind t)
  readString : ∀ {s t}, R s t → s.failed = false → Matches R (src.readString s) (src'.readString t)
  openArray : ∀ {s t}, R s t → s.failed = false → Matches R (src.openArray s) (src'.openArray t)
  nextItem : ∀ {s t}, R s t → s.failed = false → Matches R (src.nextItem s) (src'.nextItem t)
  openObject : ∀ {s t}, R s t → s.failed = false → Matches R (src.openObject s) (src'.openObject t)
  nextKey : ∀ {s t}, R s t → s.failed = false → Matches R (src.nextKey s) (src'.nextKey t)
  readInteger : ∀ {s t}, R s t → s.failed = false →
    Matches R (src.readInteger s) (src'.readInteger t)
  readFloat : ∀ {s t}, R s t → s.failed = false → Matches R (src.readFloat s) (src'.readFloat t)

namespace Simulates

variable {src : TokenSource σ} {src' : TokenSource τ} {R : Session σ → Session τ → Prop}

/-- Settling on equal values of sources that match, the results match. -/
theorem settle (sim : Simulates src src' R) {v v' : Value} {s : Session σ} {t : Session τ}
    (hv : v = v') (h : R s t) : Matches R (settle v s) (settle v' t) := by
  rw [Build.settle, Build.settle, sim.failed h, hv]
  exact ⟨rfl, h⟩

/-- Numbers that are read from matching sources match. -/
theorem number (sim : Simulates src src' R) {s : Session σ} {t : Session τ} (h : R s t)
    (hs : s.failed = false) : Matches R (number src s) (number src' t) := by
  obtain ⟨htoken, h₁⟩ := sim.readInteger h hs
  rw [Build.number, Build.number]
  dsimp only
  rw [← sim.failed h₁, ← htoken]
  cases hf : (src.readInteger s).2.failed with
  | true => exact ⟨rfl, h₁⟩
  | false =>
      cases (src.readInteger s).1 with
      | value n => exact ⟨rfl, h₁⟩
      | tooLarge => exact ⟨rfl, sim.fail h₁ hf _⟩
      | notInteger =>
          obtain ⟨hx, h₂⟩ := sim.readFloat h₁ hf
          exact sim.settle (by rw [hx]) h₂

/-- Scalars that are read from matching sources match. -/
theorem scalar (sim : Simulates src src' R) (kind : Kind) {s : Session σ} {t : Session τ}
    (h : R s t) (hs : s.failed = false) : Matches R (scalar src kind s) (scalar src' kind t) := by
  cases kind with
  | null => exact ⟨rfl, sim.readNull h hs⟩
  | true =>
      obtain ⟨hb, h₁⟩ := sim.readBool h hs .true
      exact sim.settle (by rw [hb]) h₁
  | false =>
      obtain ⟨hb, h₁⟩ := sim.readBool h hs .false
      exact sim.settle (by rw [hb]) h₁
  | string =>
      obtain ⟨ht, h₁⟩ := sim.readString h hs
      exact sim.settle (by rw [ht, sim.document h₁]) h₁
  | number => exact sim.number h hs
  | infinity =>
      obtain ⟨hx, h₁⟩ := sim.readFloat h hs
      exact sim.settle (by rw [hx]) h₁
  | nan =>
      obtain ⟨hx, h₁⟩ := sim.readFloat h hs
      exact sim.settle (by rw [hx]) h₁
  | minus => exact ⟨rfl, sim.fail h hs _⟩
  | array => exact ⟨rfl, sim.fail h hs _⟩
  | object => exact ⟨rfl, sim.fail h hs _⟩
  | other => exact ⟨rfl, sim.fail h hs _⟩

/-- Both stop at an error, or both go on. -/
theorem unless_failed (sim : Simulates src src' R) {s : Session σ} {t : Session τ} (h : R s t)
    {rest : Option (Value × Session σ)} {rest' : Option (Value × Session τ)}
    (hrest : s.failed = false → Option.Rel (Matches R) rest rest') :
    Option.Rel (Matches R) (if s.failed then some (.null, s) else rest)
      (if t.failed then some (.null, t) else rest') := by
  rw [← sim.failed h]
  cases hf : s.failed with
  | true => exact .some ⟨rfl, h⟩
  | false => exact hrest hf

/-- The builders go step by step alike. -/
theorem answer (sim : Simulates src src' R) (limit steps : Nat) :
    (∀ kind depth {s t}, R s t → s.failed = false → Option.Rel (Matches R)
      (value src limit steps kind depth s) (value src' limit steps kind depth t)) ∧
    (∀ depth done next {s t}, R s t → s.failed = false → Option.Rel (Matches R)
      (items src limit steps depth done next s) (items src' limit steps depth done next t)) ∧
    ∀ depth done next {s t}, R s t → s.failed = false → Option.Rel (Matches R)
      (members src limit steps depth done next s) (members src' limit steps depth done next t) := by
  -- every call is reached through `unless_failed`, hence in sessions without an error
  induction steps with
  | zero => exact ⟨fun _ _ _ _ _ _ => .none, fun _ _ _ _ _ _ _ => .none,
      fun _ _ _ _ _ _ _ => .none⟩
  | succ steps ih =>
      obtain ⟨ihValue, ihItems, ihMembers⟩ := ih
      refine ⟨?_, ?_, ?_⟩
      · intro kind depth s t h hs
        by_cases ha : kind = .array
        · subst ha
          obtain ⟨hnext, h₁⟩ := sim.openArray h hs
          rw [value, value]
          split
          · exact .some ⟨rfl, sim.fail h hs _⟩
          · refine sim.unless_failed h₁ fun hs₁ => ?_
            rw [← hnext]
            exact ihItems _ _ _ h₁ hs₁
        by_cases ho : kind = .object
        · subst ho
          obtain ⟨hnext, h₁⟩ := sim.openObject h hs
          rw [value, value]
          split
          · exact .some ⟨rfl, sim.fail h hs _⟩
          · refine sim.unless_failed h₁ fun hs₁ => ?_
            rw [← hnext]
            exact ihMembers _ _ _ h₁ hs₁
        · rw [value_scalar ha ho, value_scalar ha ho]
          exact .some (sim.scalar kind h hs)
      · intro depth done next s t h hs
        cases next with
        | none => exact .some ⟨rfl, h⟩
        | some kind =>
            rw [items, items]
            have hrel := ihValue kind depth h hs
            generalize value src limit steps kind depth s = x at hrel ⊢
            generalize value src' limit steps kind depth t = y at hrel ⊢
            cases hrel with
            | none => exact .none
            | @some r r' hr =>
                obtain ⟨v, s₁⟩ := r
                obtain ⟨v', t₁⟩ := r'
                obtain ⟨hv, h₁⟩ := hr
                obtain rfl : v = v' := hv
                refine sim.unless_failed h₁ fun hs₁ => ?_
                obtain ⟨hnext, h₂⟩ := sim.nextItem h₁ hs₁
                refine sim.unless_failed h₂ fun hs₂ => ?_
                rw [← hnext]
                exact ihItems _ _ _ h₂ hs₂
      · intro depth done next s t h hs
        cases next with
        | none => exact .some ⟨rfl, h⟩
        | some token =>
            rw [members, members]
            obtain ⟨hkind, h₁⟩ := sim.peek h hs
            refine sim.unless_failed h₁ fun hs₁ => ?_
            rw [← hkind]
            have hrel := ihValue (src.peek s).1 depth h₁ hs₁
            generalize value src limit steps (src.peek s).1 depth (src.peek s).2 = x at hrel ⊢
            generalize value src' limit steps (src.peek s).1 depth (src'.peek t).2 = y at hrel ⊢
            cases hrel with
            | none => exact .none
            | @some r r' hr =>
                obtain ⟨v, s₂⟩ := r
                obtain ⟨v', t₂⟩ := r'
                obtain ⟨hv, h₂⟩ := hr
                obtain rfl : v = v' := hv
                refine sim.unless_failed h₂ fun hs₂ => ?_
                obtain ⟨hnext, h₃⟩ := sim.nextKey h₂ hs₂
                refine sim.unless_failed h₃ fun hs₃ => ?_
                rw [← hnext, sim.document h]
                exact ihMembers _ _ _ h₃ hs₃

theorem announced? (sim : Simulates src src' R) (limit steps : Nat) (kind : Kind)
    {s : Session σ} {t : Session τ} (h : R s t) (hs : s.failed = false) :
    Option.Rel (Matches R) (announced? src limit steps kind s)
      (announced? src' limit steps kind t) := by
  have hrel := (sim.answer limit steps).1 kind 0 h hs
  rw [Build.announced?, Build.announced?]
  generalize value src limit steps kind 0 s = x at hrel ⊢
  generalize value src' limit steps kind 0 t = y at hrel ⊢
  cases hrel with
  | none => exact .none
  | some hr => exact .some (sim.settle hr.1 hr.2)

/-- **Builders over sources that answer alike answer alike.** -/
theorem whole? (sim : Simulates src src' R) (limit steps : Nat) (announced : Option Kind)
    {s : Session σ} {t : Session τ} (h : R s t) (hs : s.failed = false) :
    Option.Rel (Matches R) (whole? src limit steps announced s)
      (whole? src' limit steps announced t) := by
  cases announced with
  | some kind => exact sim.announced? limit steps kind h hs
  | none =>
      obtain ⟨hkind, h₁⟩ := sim.peek h hs
      rw [Build.whole?, Build.whole?, next?, next?]
      refine sim.unless_failed h₁ fun hs₁ => ?_
      rw [← hkind]
      exact sim.announced? limit steps _ h₁ hs₁

end Simulates

/-! ### The log of a run -/

/-- The operations of a source that take a session to another. -/
inductive Operation where
  | peek
  | readNull
  | readBool (kind : Kind)
  | readString
  | openArray
  | nextItem
  | openObject
  | nextKey
  | readInteger
  | readFloat

/-- The session that an operation leads to. -/
def Operation.run (src : TokenSource σ) : Operation → Session σ → Session σ
  | peek, s => (src.peek s).2
  | readNull, s => src.readNull s
  | readBool kind, s => (src.readBool kind s).2
  | readString, s => (src.readString s).2
  | openArray, s => (src.openArray s).2
  | nextItem, s => (src.nextItem s).2
  | openObject, s => (src.openObject s).2
  | nextKey, s => (src.nextKey s).2
  | readInteger, s => (src.readInteger s).2
  | readFloat, s => (src.readFloat s).2

/-- A call of an operation in a session. -/
structure Call (σ : Type) where
  operation : Operation
  before : Session σ

/-- The session that a call leads to. -/
def Call.after (src : TokenSource σ) (c : Call σ) : Session σ :=
  c.operation.run src c.before

/-- A source's state together with the calls made so far. -/
abbrev Logged (σ : Type) : Type :=
  σ × List (Call σ)

/-- A source before any call. -/
abbrev Logged.start (state : σ) : Session (Logged σ) :=
  { state := (state, []) }

/-- The session without the log. -/
def bare (s : Session (Logged σ)) : Session σ :=
  ⟨s.state.1, s.fault⟩

/-- Makes a call and puts it in the log. -/
def record (src : TokenSource σ) (op : Operation) (s : Session (Logged σ)) :
    Session (Logged σ) where
  state := ((op.run src (bare s)).state, s.state.2 ++ [⟨op, bare s⟩])
  fault := (op.run src (bare s)).fault

/-- The same source, keeping a log of the calls made. -/
def logged (src : TokenSource σ) : TokenSource (Logged σ) where
  document st := src.document st.1
  position st := src.position st.1
  peek s := ((src.peek (bare s)).1, record src .peek s)
  readNull s := record src .readNull s
  readBool kind s := ((src.readBool kind (bare s)).1, record src (.readBool kind) s)
  readString s := ((src.readString (bare s)).1, record src .readString s)
  openArray s := ((src.openArray (bare s)).1, record src .openArray s)
  nextItem s := ((src.nextItem (bare s)).1, record src .nextItem s)
  openObject s := ((src.openObject (bare s)).1, record src .openObject s)
  nextKey s := ((src.nextKey (bare s)).1, record src .nextKey s)
  readInteger s := ((src.readInteger (bare s)).1, record src .readInteger s)
  readFloat s := ((src.readFloat (bare s)).1, record src .readFloat s)

/-- Calls that lead from a session to another, each where the one before it has ended, and none of
them where an error has been recorded. -/
inductive Trace (src : TokenSource σ) (s : Session σ) : List (Call σ) → Session σ → Prop where
  | start : Trace src s [] s
  | call {calls : List (Call σ)} {s' : Session σ} (op : Operation) : Trace src s calls s' →
      s'.failed = false → Trace src s (calls ++ [⟨op, s'⟩]) (op.run src s')

namespace Trace

variable {src : TokenSource σ} {s s' : Session σ} {calls : List (Call σ)}

/-- Only the last call can have recorded an error. -/
theorem last_of_failed (h : Trace src s calls s') :
    ∀ c ∈ calls, (c.after src).failed = true → calls.getLast? = some c ∧ s' = c.after src := by
  induction h with
  | start => simp
  | @call calls s' op h hs ih =>
      intro c hc hf
      rcases List.mem_append.mp hc with hc | hc
      · -- an earlier call that failed would have been the last before this one
        obtain ⟨-, rfl⟩ := ih c hc hf
        rw [hf] at hs
        cases hs
      · rw [List.mem_singleton.mp hc]
        exact ⟨List.getLast?_concat, rfl⟩

end Trace

/-- Where a run is when its calls have led to a session: there, or behind an error of the builder's
own. -/
def Ends (src : TokenSource σ) (s s' : Session σ) : Prop :=
  s' = s ∨ s.failed = false ∧ ∃ code, s' = fail src s code

/-- A source that has not failed has not ended. -/
theorem Ends.eq_of_not_failed {src : TokenSource σ} {s s' : Session σ} (h : Ends src s s')
    (hs : s'.failed = false) : s' = s := by
  rcases h with rfl | ⟨-, code, rfl⟩
  · rfl
  · rw [failed_fail] at hs
    cases hs

/-- The logging source is in the session that its log leads to. -/
def Follows (src : TokenSource σ) (start : Session σ) (s : Session (Logged σ)) (t : Session σ) :
    Prop :=
  bare s = t ∧ ∃ u, Trace src start s.state.2 u ∧ Ends src u t

/-- The log goes along with the source, call by call. -/
theorem Follows.record {src : TokenSource σ} {start t : Session σ} {s : Session (Logged σ)}
    (h : Follows src start s t) (hs : s.failed = false) (op : Operation) :
    Follows src start (record src op s) (op.run src t) := by
  obtain ⟨rfl, u, htrace, hends⟩ := h
  obtain rfl := hends.eq_of_not_failed hs
  exact ⟨rfl, _, .call op htrace hs, .inl rfl⟩

theorem follows_start (src : TokenSource σ) (state : σ) :
    Follows src { state } (Logged.start state) { state } :=
  ⟨rfl, _, .start, .inl rfl⟩

/-- **Keeping a log changes nothing.** -/
theorem simulates_logged (src : TokenSource σ) (start : Session σ) :
    Simulates (logged src) src (Follows src start) where
  failed h := by
    rw [← h.1]
    rfl
  document h := by
    rw [← h.1]
    rfl
  fail := by
    -- an error of the builder's own is no call, so it is not in the log
    rintro s t ⟨rfl, u, htrace, hends⟩ hs code
    obtain rfl := hends.eq_of_not_failed hs
    exact ⟨rfl, _, htrace, .inr ⟨hs, code, rfl⟩⟩
  peek h hs := ⟨by rw [← h.1]; rfl, h.record hs .peek⟩
  readNull h hs := h.record hs .readNull
  readBool h hs kind := ⟨by rw [← h.1]; rfl, h.record hs (.readBool kind)⟩
  readString h hs := ⟨by rw [← h.1]; rfl, h.record hs .readString⟩
  openArray h hs := ⟨by rw [← h.1]; rfl, h.record hs .openArray⟩
  nextItem h hs := ⟨by rw [← h.1]; rfl, h.record hs .nextItem⟩
  openObject h hs := ⟨by rw [← h.1]; rfl, h.record hs .openObject⟩
  nextKey h hs := ⟨by rw [← h.1]; rfl, h.record hs .nextKey⟩
  readInteger h hs := ⟨by rw [← h.1]; rfl, h.record hs .readInteger⟩
  readFloat h hs := ⟨by rw [← h.1]; rfl, h.record hs .readFloat⟩

/-! ### Behind an error -/

/-- The sources are the same in every session without an error. -/
structure AgreeUntilError (src src' : TokenSource σ) : Prop where
  document : src.document = src'.document
  position : src.position = src'.position
  peek : ∀ s, s.failed = false → src.peek s = src'.peek s
  readNull : ∀ s, s.failed = false → src.readNull s = src'.readNull s
  readBool : ∀ s kind, s.failed = false → src.readBool kind s = src'.readBool kind s
  readString : ∀ s, s.failed = false → src.readString s = src'.readString s
  openArray : ∀ s, s.failed = false → src.openArray s = src'.openArray s
  nextItem : ∀ s, s.failed = false → src.nextItem s = src'.nextItem s
  openObject : ∀ s, s.failed = false → src.openObject s = src'.openObject s
  nextKey : ∀ s, s.failed = false → src.nextKey s = src'.nextKey s
  readInteger : ∀ s, s.failed = false → src.readInteger s = src'.readInteger s
  readFloat : ∀ s, s.failed = false → src.readFloat s = src'.readFloat s

/-- Sources that agree until an error simulate each other. -/
theorem AgreeUntilError.simulates {src src' : TokenSource σ} (h : AgreeUntilError src src') :
    Simulates src src' Eq where
  failed := by rintro s t rfl; rfl
  document := by rintro s t rfl; rw [h.document]
  fail := by rintro s t rfl _ code; rw [fail, fail, h.document, h.position]
  peek := by rintro s t rfl hs; rw [h.peek s hs]; exact ⟨rfl, rfl⟩
  readNull := by rintro s t rfl hs; exact h.readNull s hs
  readBool := by rintro s t rfl hs kind; rw [h.readBool s kind hs]; exact ⟨rfl, rfl⟩
  readString := by rintro s t rfl hs; rw [h.readString s hs]; exact ⟨rfl, rfl⟩
  openArray := by rintro s t rfl hs; rw [h.openArray s hs]; exact ⟨rfl, rfl⟩
  nextItem := by rintro s t rfl hs; rw [h.nextItem s hs]; exact ⟨rfl, rfl⟩
  openObject := by rintro s t rfl hs; rw [h.openObject s hs]; exact ⟨rfl, rfl⟩
  nextKey := by rintro s t rfl hs; rw [h.nextKey s hs]; exact ⟨rfl, rfl⟩
  readInteger := by rintro s t rfl hs; rw [h.readInteger s hs]; exact ⟨rfl, rfl⟩
  readFloat := by rintro s t rfl hs; rw [h.readFloat s hs]; exact ⟨rfl, rfl⟩

theorem AgreeUntilError.whole?_eq {src src' : TokenSource σ} (h : AgreeUntilError src src')
    (limit steps : Nat) (announced : Option Kind) {s : Session σ} (hs : s.failed = false) :
    whole? src limit steps announced s = whole? src' limit steps announced s := by
  have hrel := h.simulates.whole? limit steps announced rfl hs
  generalize whole? src limit steps announced s = x at hrel ⊢
  generalize whole? src' limit steps announced s = y at hrel ⊢
  cases hrel with
  | none => rfl
  | some hr => exact congrArg some (Prod.ext hr.1 hr.2)

/-- What is answered is answered by a run with a log. -/
theorem exists_logged {src : TokenSource σ} {limit steps : Nat} {state : σ}
    {announced : Option Kind} {r : Value × Session σ}
    (h : whole? src limit steps announced { state } = some r) :
    ∃ s, whole? (logged src) limit steps announced (Logged.start state) = some (r.1, s) ∧
      bare s = r.2 := by
  have hrel := (simulates_logged src _).whole? limit steps announced (follows_start src state) rfl
  rw [h] at hrel
  generalize hrun : whole? (logged src) limit steps announced (Logged.start state) = run
  rw [hrun] at hrel
  cases hrel with
  | @some x _ hr => exact ⟨x.2, congrArg some (Prod.ext hr.1 rfl), hr.2.1⟩

/-- What is answered with steps enough is so in a run with a log, and the log is always the same. -/
theorem exists_logged_settles {src : TokenSource σ} {limit : Nat} {announced : Option Kind}
    {state : σ} {v : Value} {s' : Session σ}
    (h : ∃ n, ∀ steps, n ≤ steps → whole? src limit steps announced { state } = some (v, s')) :
    ∃ s, bare s = s' ∧ ∃ n, ∀ steps, n ≤ steps →
      whole? (logged src) limit steps announced (Logged.start state) = some (v, s) := by
  obtain ⟨n, hn⟩ := h
  obtain ⟨s, hrun, hbare⟩ := exists_logged (hn n (Nat.le_refl n))
  exact ⟨s, hbare, n, fun steps hsteps => whole?_extends hsteps _ _ _ hrun⟩

/-- **The first error is final.**  Let a builder be run over any source, with no error on record.

What the source would do in a session with an error has no part in the answer.  A run that goes
wrong answers null, for all numbers of steps from some one on, with the record as the first error
has left it; a run over a value that is handed out, not nested beyond the limit, answers the whole
of it; and over a source that comes to an end every run is one or the other.

When a run has come to an end, its calls lead from the first session to the last, none of them made
with an error on record; if a call has recorded an error, then it is the last call, and its error is
the one on record at the end.  With an error on record the run has gone wrong there and the answer
is null, and without one it is the whole of what was handed out. -/
theorem first_error_is_final (src : TokenSource σ) (limit : Nat) (announced : Option Kind)
    (state : σ) :
    (∀ src' steps, AgreeUntilError src src' →
      whole? src limit steps announced { state } = whole? src' limit steps announced { state }) ∧
    (∀ s', RunBreaks src limit announced { state } s' →
      ∃ s, bare s = s' ∧ ∃ n, ∀ steps, n ≤ steps →
        whole? (logged src) limit steps announced (Logged.start state) = some (.null, s)) ∧
    (∀ v d s', HandsOut src announced v d { state } s' → d ≤ limit →
      ∃ s, bare s = s' ∧ ∃ n, ∀ steps, n ≤ steps →
        whole? (logged src) limit steps announced (Logged.start state) = some (v, s)) ∧
    (∀ measure, src.Bounded measure →
      (∃ s', RunBreaks src limit announced { state } s') ∨
        ∃ v d s', HandsOut src announced v d { state } s' ∧ d ≤ limit) ∧
    ∀ steps v s, whole? (logged src) limit steps announced (Logged.start state) = some (v, s) →
      whole? src limit steps announced { state } = some (v, bare s) ∧
      (∃ s', Trace src { state } s.state.2 s' ∧ Ends src s' (bare s)) ∧
      (∀ c ∈ s.state.2, (c.after src).failed = true →
        s.state.2.getLast? = some c ∧ s.fault = (c.after src).fault) ∧
      (s.failed = true → v = .null ∧ RunBreaks src limit announced { state } (bare s)) ∧
      (s.failed = false → ∃ d, HandsOut src announced v d { state } (bare s) ∧ d ≤ limit) := by
  refine ⟨fun src' steps h => h.whole?_eq limit steps announced rfl,
    fun s' h => exists_logged_settles h.settles,
    fun v d s' h hd => exists_logged_settles (h.settles hd), ?_, ?_⟩
  · intro measure bounded
    obtain ⟨⟨v, s'⟩, hrun⟩ := exists_whole? bounded limit announced { state }
    cases hs : s'.failed with
    | true => exact .inl ⟨s', runBreaks_of_whole? hrun hs⟩
    | false =>
        obtain ⟨d, hands⟩ := handsOut_of_whole? hrun hs
        exact .inr ⟨v, d, s', hands⟩
  · intro steps v s h
    -- the bare source goes along with the logged one, and the log with the trace
    have hrel := (simulates_logged src _).whole? limit steps announced (follows_start src state) rfl
    rw [h] at hrel
    generalize hrun : whole? src limit steps announced { state } = run at hrel
    cases hrel with
    | @some _ r hr =>
        obtain ⟨v', s'⟩ := r
        obtain ⟨hv, rfl, u, htrace, hends⟩ := hr
        obtain rfl : v = v' := hv
        refine ⟨rfl, ⟨u, htrace, hends⟩, ?_,
          fun hs => ⟨null_of_failed h hs, runBreaks_of_whole? hrun hs⟩, handsOut_of_whole? hrun⟩
        intro c hc hf
        obtain ⟨hlast, rfl⟩ := htrace.last_of_failed c hc hf
        rcases hends with he | ⟨hs, -⟩
        · exact ⟨hlast, congrArg Session.fault he⟩
        · rw [hf] at hs
          cases hs

/-- A source that hands out an array of two items and fails where it should tell whether there are
more. -/
def brokenArray : Script where
  document := Slice.ofBytes 0 []
  kinds := { entries := [.answer (some .array), .answer (some .number), .answer (some .null),
    .failure (some .invalidNumber)] }
  integers := { entries := [.answer (.value 7)] }

/-- The items read before the error are not answered, and no call is made behind the six that lead
to it. -/
theorem first_error_is_final_brokenArray :
    ∃ s', RunBreaks Script.tokens 1 none { state := brokenArray } s' ∧
      ∃ s, bare s = s' ∧ (∃ n, ∀ steps, n ≤ steps →
        whole? (logged Script.tokens) 1 steps none (Logged.start brokenArray) =
          some (.null, s)) ∧
      s.fault = some ⟨.invalidNumber, 4, 1, 1⟩ ∧ s.state.2.length = 6 := by
  have hbreaks : RunBreaks Script.tokens 1 none { state := brokenArray } _ :=
    ⟨.array, _, rfl, .inr ⟨rfl, .array (by decide) rfl rfl (.itemBehind (.integer rfl rfl)
      (by decide) rfl rfl (.nextItem (.null rfl rfl) (by decide) rfl rfl))⟩⟩
  obtain ⟨s, hbare, n, hn⟩ :=
    (first_error_is_final Script.tokens 1 none brokenArray).2.1 _ hbreaks
  refine ⟨_, hbreaks, s, hbare, ⟨n, hn⟩, ?_⟩
  -- nine steps are enough, so the answer is the one they give
  have hnine : whole? (logged Script.tokens) 1 9 none (Logged.start brokenArray) =
      some (.null, _) := rfl
  obtain rfl := (Prod.mk.inj (eq_of_whole? hn hnine)).2
  exact ⟨rfl, rfl⟩

end Build

end JsonTree
