import JsonTree.Proofs.Writing

/-!
# Appending — writing behind what is there already

`Value.compactText` is the compact text by recursion over the value: a scalar by itself, and the
texts of items or members joined by commas between brackets.

* `compactText_eq_ok_iff`: the text is the rendered value, when every floating point number may be
  written.
* `writing_appends`: the writer with its stack appends this text to whatever the output holds, and
  the pretty writer appends what it writes to an empty output.  What is there before is kept and
  does not matter; in particular a point or a power of ten in it is none of a number that follows.
-/

namespace JsonTree

open Ascii

namespace Value

/-! ### The text by recursion -/

mutual

/-- The compact text of a value. -/
def compactText (allowNonFinite : Bool) : Value → Except WriteError Bytes
  | array items => do
    let texts ← itemTexts allowNonFinite items
    return openBracket :: ([comma].intercalate texts ++ [closeBracket])
  | object members => do
    let texts ← memberTexts allowNonFinite members
    return openBrace :: ([comma].intercalate texts ++ [closeBrace])
  | v => (Write.scalar allowNonFinite v .empty).map Output.bytes

/-- The texts of items. -/
def itemTexts (allowNonFinite : Bool) : List Value → Except WriteError (List Bytes)
  | [] => return []
  | v :: vs => do
    let text ← compactText allowNonFinite v
    let texts ← itemTexts allowNonFinite vs
    return text :: texts

/-- The texts of members. -/
def memberTexts (allowNonFinite : Bool) : Members → Except WriteError (List Bytes)
  | [] => return []
  | (key, v) :: ms => do
    let text ← compactText allowNonFinite v
    let texts ← memberTexts allowNonFinite ms
    return (Write.quoted key.bytes ++ colon :: text) :: texts

end

end Value

/-- A joined list is its first text and then the others, each behind a separator. -/
theorem Bytes.intercalate_cons (separator : UInt8) (text : Bytes) (texts : List Bytes) :
    [separator].intercalate (text :: texts) = text ++ texts.flatMap (separator :: ·) := by
  induction texts generalizing text with
  | nil => simp [List.intercalate]
  | cons text' texts ih => rw [List.intercalate_cons_cons, ih, List.flatMap_cons]; simp

/-! ### Answers -/

namespace WriteError

variable {α β : Type} {x y : Except WriteError α}

/-- The writer has one error, so whatever does not answer gives it. -/
theorem eq_nonFinite_iff : x = .error .nonFinite ↔ ∀ a, x ≠ .ok a := by
  cases x with
  | error e => cases e; simp
  | ok a => simp

/-- There is one error, so what is answered without one says it all. -/
theorem ext_ok (h : ∀ a, x = .ok a ↔ y = .ok a) : x = y := by
  cases hy : y with
  | ok b => exact (h b).mpr hy
  | error e =>
      cases e
      exact eq_nonFinite_iff.mpr fun a hx => by simp [(h a).mp hx] at hy

theorem bind_eq_ok_iff {f : α → Except WriteError β} {b : β} :
    (x >>= f) = .ok b ↔ ∃ a, x = .ok a ∧ f a = .ok b := by
  cases x with
  | error e => exact iff_of_false (fun h => nomatch h) fun ⟨_, h, _⟩ => nomatch h
  | ok a => exact ⟨fun h => ⟨a, rfl, h⟩, fun ⟨_, ha, h⟩ => Except.ok.inj ha ▸ h⟩

theorem pure_eq_ok_iff {a b : α} : (pure a : Except WriteError α) = .ok b ↔ a = b :=
  ⟨Except.ok.inj, congrArg Except.ok⟩

theorem map_eq_ok_iff {f : α → β} {b : β} : x.map f = .ok b ↔ ∃ a, x = .ok a ∧ f a = b := by
  cases x with
  | error e => exact iff_of_false (fun h => nomatch h) fun ⟨_, h, _⟩ => nomatch h
  | ok a => simp [Except.map]

end WriteError

namespace Value

variable {allowNonFinite : Bool}

/-! ### The text is the rendered value -/

/-- A compact array is its items' texts joined by commas, within brackets. -/
theorem render_compact_array (items : List Value) : (array items).render .compact 0 =
    openBracket :: ([comma].intercalate (items.map (render .compact 0)) ++ [closeBracket]) := by
  cases items with
  | nil => rfl
  | cons v vs =>
      rw [List.map_cons, Bytes.intercalate_cons, List.flatMap_map, render, renderItems_eq]
      simp [Layout.line, Layout.inner, Blanks.none]

/-- A compact object is its members' texts joined by commas, within braces. -/
theorem render_compact_object (members : Members) : (object members).render .compact 0 =
    openBrace :: ([comma].intercalate (members.map (renderMember .compact 0)) ++ [closeBrace]) := by
  cases members with
  | nil => rfl
  | cons m ms =>
      rw [List.map_cons, Bytes.intercalate_cons, List.flatMap_map, render_object_cons,
        renderMembers_eq]
      simp [Layout.line, Layout.inner, Blanks.none]

/-- The text is the rendered value, if every floating point number may be written. -/
def HasText (allowNonFinite : Bool) (v : Value) : Prop :=
  ∀ bs, v.compactText allowNonFinite = .ok bs ↔
    v.Everywhere (Allowed allowNonFinite) ∧ bs = v.render .compact 0

/-- The items of an array are all written exactly when each of them may be. -/
theorem itemTexts_eq_ok_iff {vs : List Value} (ih : ∀ v ∈ vs, HasText allowNonFinite v)
    {texts : List Bytes} : itemTexts allowNonFinite vs = .ok texts ↔
      (∀ v ∈ vs, v.Everywhere (Allowed allowNonFinite)) ∧ texts = vs.map (render .compact 0) := by
  induction vs generalizing texts with
  | nil => simp [itemTexts, pure, Except.pure, eq_comm]
  | cons v vs ihItems =>
      have ihRest := fun texts => @ihItems (fun u hu => ih u (List.mem_cons_of_mem _ hu)) texts
      rw [List.forall_mem_cons, List.map_cons]
      simp only [itemTexts, WriteError.bind_eq_ok_iff, WriteError.pure_eq_ok_iff,
        ih v List.mem_cons_self _, ihRest]
      constructor
      · rintro ⟨_, ⟨hv, rfl⟩, _, ⟨hvs, rfl⟩, rfl⟩
        exact ⟨⟨hv, hvs⟩, rfl⟩
      · rintro ⟨⟨hv, hvs⟩, rfl⟩
        exact ⟨_, ⟨hv, rfl⟩, _, ⟨hvs, rfl⟩, rfl⟩

/-- The members of an object are all written exactly when each of their values may be. -/
theorem memberTexts_eq_ok_iff {ms : Members} (ih : ∀ m ∈ ms, HasText allowNonFinite m.2)
    {texts : List Bytes} : memberTexts allowNonFinite ms = .ok texts ↔
      (∀ m ∈ ms, m.2.Everywhere (Allowed allowNonFinite)) ∧
        texts = ms.map (renderMember .compact 0) := by
  induction ms generalizing texts with
  | nil => simp [memberTexts, pure, Except.pure, eq_comm]
  | cons m ms ihMembers =>
      have ihRest := fun texts => @ihMembers (fun u hu => ih u (List.mem_cons_of_mem _ hu)) texts
      rw [List.forall_mem_cons, List.map_cons]
      simp only [memberTexts, WriteError.bind_eq_ok_iff, WriteError.pure_eq_ok_iff,
        ih m List.mem_cons_self _, ihRest]
      constructor
      · rintro ⟨_, ⟨hv, rfl⟩, _, ⟨hms, rfl⟩, rfl⟩
        exact ⟨⟨hv, hms⟩, rfl⟩
      · rintro ⟨⟨hv, hms⟩, rfl⟩
        exact ⟨_, ⟨hv, rfl⟩, _, ⟨hms, rfl⟩, rfl⟩

/-- A scalar's compact text is what the writer puts out for it into an empty output. -/
theorem compactText_scalar {v : Value} (hv : v.IsScalar) :
    v.compactText allowNonFinite = (Write.scalar allowNonFinite v .empty).map Output.bytes := by
  cases v with
  | array _ | object _ => exact hv.elim
  | _ => rfl

theorem hasText_scalar {v : Value} (hv : v.IsScalar) : HasText allowNonFinite v := by
  intro bs
  rw [compactText_scalar hv, WriteError.map_eq_ok_iff, Write.scalar_eq allowNonFinite hv .compact 0]
  simp only [Write.written_eq_ok_iff]
  constructor
  · rintro ⟨_, ⟨hmay, rfl⟩, rfl⟩
    exact ⟨hmay, Output.bytes_append _ _⟩
  · rintro ⟨hmay, rfl⟩
    exact ⟨_, ⟨hmay, rfl⟩, Output.bytes_append _ _⟩

/-- **The text by recursion is the rendered value**, if every floating point number in it may be
written. -/
theorem hasText (v : Value) : HasText allowNonFinite v := by
  induction v with
  | null | boolean _ | integer _ | floating _ | string _ => exact hasText_scalar trivial
  | array items ih =>
      intro bs
      simp only [compactText, WriteError.bind_eq_ok_iff, WriteError.pure_eq_ok_iff,
        itemTexts_eq_ok_iff ih, render_compact_array, everywhere_array]
      constructor
      · rintro ⟨_, ⟨hitems, rfl⟩, rfl⟩
        exact ⟨⟨trivial, hitems⟩, rfl⟩
      · rintro ⟨⟨-, hitems⟩, rfl⟩
        exact ⟨_, ⟨hitems, rfl⟩, rfl⟩
  | object members ih =>
      intro bs
      simp only [compactText, WriteError.bind_eq_ok_iff, WriteError.pure_eq_ok_iff,
        memberTexts_eq_ok_iff ih, render_compact_object, everywhere_object]
      constructor
      · rintro ⟨_, ⟨hmembers, rfl⟩, rfl⟩
        exact ⟨⟨trivial, hmembers⟩, rfl⟩
      · rintro ⟨⟨-, hmembers⟩, rfl⟩
        exact ⟨_, ⟨hmembers, rfl⟩, rfl⟩

/-! ### Behind what is there already -/

/-- A value cannot be written exactly when a floating point number in it may not be. -/
theorem not_everywhere_allowed_iff {v : Value} :
    ¬ v.Everywhere (Allowed allowNonFinite) ↔
      allowNonFinite = false ∧ ∃ x, Inside (.floating x) v ∧ x.isFinite = false := by
  simp only [Everywhere, not_forall, exists_prop]
  constructor
  · rintro ⟨u, hu, hno⟩
    cases u with
    | floating x =>
        rw [Allowed, not_or, Bool.not_eq_true, Bool.not_eq_true] at hno
        exact ⟨hno.2, x, hu, hno.1⟩
    | _ => exact absurd trivial hno
  · rintro ⟨rfl, x, hu, hx⟩
    refine ⟨_, hu, ?_⟩
    rw [Allowed, hx]
    decide

/-- What the output holds behind a written value. -/
theorem bytes_writeTo_eq_ok_iff {v : Value} {options : WriteOptions} {out : Output} {bs : Bytes} :
    (v.writeTo options out).map Output.bytes = .ok bs ↔
      v.Everywhere (Allowed options.allowNonFinite) ∧
        bs = out.bytes ++ v.render options.layout 0 := by
  simp only [WriteError.map_eq_ok_iff, writeTo_eq, Write.written_eq_ok_iff]
  constructor
  · rintro ⟨_, ⟨hmay, rfl⟩, rfl⟩
    exact ⟨hmay, Output.bytes_append _ _⟩
  · rintro ⟨hmay, rfl⟩
    exact ⟨_, ⟨hmay, rfl⟩, Output.bytes_append _ _⟩

/-- What is written to an empty output is written behind any other. -/
theorem bytes_writeTo {v : Value} {options : WriteOptions} {answer : Except WriteError Bytes}
    (h : ∀ bs, answer = .ok bs ↔
      v.Everywhere (Allowed options.allowNonFinite) ∧ bs = v.render options.layout 0)
    (out : Output) :
    (v.writeTo options out).map Output.bytes = answer.map (out.bytes ++ ·) := by
  refine WriteError.ext_ok fun bs => ?_
  rw [bytes_writeTo_eq_ok_iff, WriteError.map_eq_ok_iff]
  constructor
  · rintro ⟨hmay, rfl⟩
    exact ⟨_, (h _).mpr ⟨hmay, rfl⟩, rfl⟩
  · rintro ⟨_, hanswer, rfl⟩
    obtain ⟨hmay, rfl⟩ := (h _).mp hanswer
    exact ⟨hmay, rfl⟩

/-- **Writing appends, and what is there already does not matter.** -/
theorem writing_appends (v : Value) (allowNonFinite : Bool) (out : Output) :
    (v.writeTo ⟨.compact, allowNonFinite⟩ out).map Output.bytes =
        (v.compactText allowNonFinite).map (out.bytes ++ ·) ∧
      (v.writeTo ⟨.pretty, allowNonFinite⟩ out).map Output.bytes =
        (v.write ⟨.pretty, allowNonFinite⟩).map (out.bytes ++ ·) ∧
      (∀ layout, v.writeTo ⟨layout, allowNonFinite⟩ out = .error .nonFinite ↔
        allowNonFinite = false ∧ ∃ x, Inside (.floating x) v ∧ x.isFinite = false) ∧
      ∀ layout x, x.isFinite = true →
        ((floating x).writeTo ⟨layout, allowNonFinite⟩ out).map Output.bytes =
          .ok (out.bytes ++ (Write.numberStyle.shortest x ++
            if Decimal.Style.isFloating (Write.numberStyle.shortest x) then []
            else [point, zero])) := by
  refine ⟨?_, ?_, fun layout => ?_, fun layout x hx => ?_⟩
  · exact @bytes_writeTo v ⟨.compact, allowNonFinite⟩ _ (hasText v) out
  · exact bytes_writeTo (fun _ => write_eq_ok_iff) out
  · rw [← not_everywhere_allowed_iff, WriteError.eq_nonFinite_iff, writeTo_eq]
    simp [Write.written_eq_ok_iff]
  · rw [writeTo_eq, Write.written_of (everywhere_floating.mpr (.inl hx)), Except.map,
      Output.bytes_append, render, Write.floatingText, if_pos hx, Decimal.Style.finite,
      Decimal.Style.asFloating]
    split <;> simp

/-- Two, behind a number with a point and a power of ten. -/
theorem writing_appends_markBefore :
    ((floating ⟨0x4000000000000000⟩).writeTo {} (.ofBytes (Bytes.ofString "1.5e3"))).map
        Output.bytes = .ok (Bytes.ofString "1.5e32.0") := by
  have htext : Write.numberStyle.shortest ⟨0x4000000000000000⟩ = Bytes.ofString "2" := by
    decide +kernel
  obtain ⟨-, -, -, hfinite⟩ := writing_appends (floating ⟨0x4000000000000000⟩) false
    (.ofBytes (Bytes.ofString "1.5e3"))
  rw [hfinite .compact ⟨0x4000000000000000⟩ (by decide), htext]
  decide

end Value

end JsonTree
