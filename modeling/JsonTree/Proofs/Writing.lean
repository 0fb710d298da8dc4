import JsonTree.Write
import JsonTree.Proofs.Decimal
import JsonTree.Proofs.Grammar
import JsonTree.Proofs.Tree

/-!
# Writing — what is written, by recursion over the value

The compact writer works on a stack and the pretty writer passes an output along.
Both write `Value.render`, which goes down the value once and differs between the layouts only in
the blanks it puts between the tokens.

* `Value.writeTo_eq`: writing appends the rendered value when every floating point number in it may
  be written, and is an error otherwise.
-/

namespace JsonTree

open Ascii

namespace Output

theorem ext {out out' : Output} (h : out.backwards = out'.backwards) : out = out' := by
  obtain ⟨bs, n, rfl⟩ := out
  obtain ⟨bs', n', rfl⟩ := out'
  cases h
  rfl

theorem append_nil (out : Output) : out.append [] = out := rfl

/-- Two texts are put behind an output in a row. -/
theorem append_append (out : Output) (bs bs' : Bytes) :
    (out.append bs).append bs' = out.append (bs ++ bs') :=
  ext (by simp [append, List.reverseAux_eq])

/-- Pushing a byte is appending it. -/
theorem push_eq (out : Output) (b : UInt8) : out.push b = out.append [b] := rfl

end Output

/-! ### What is written -/

namespace Layout

/-- A new line with its indentation. -/
def line : Layout → Nat → Blanks
  | .compact, _ => .none
  | .pretty, indent => ⟨newline :: List.replicate indent space, by
      intro b hb
      rcases List.mem_cons.mp hb with rfl | hb
      · rfl
      · rw [List.eq_of_mem_replicate hb]
        rfl⟩

/-- What stands between a colon and its value. -/
def gap : Layout → Blanks
  | .compact => .none
  | .pretty => ⟨[space], by simp [isBlank]⟩

/-- The indentation inside an array or object. -/
def inner : Layout → Nat → Nat
  | .compact, indent => indent
  | .pretty, indent => indent + Write.indentStep

end Layout

/-- The text of a floating point number, one that is not finite included. -/
def Write.floatingText (x : Binary64) : Bytes :=
  if x.isFinite then numberStyle.finite x
  else if x.isNaN then NonFinite.nan.text
  else if x.negative then NonFinite.negativeInfinity.text
  else NonFinite.infinity.text

namespace Value

mutual

/-- The text of a value at an indentation. -/
def render (layout : Layout) (indent : Nat) : Value → Bytes
  | null => Node.null.text
  | boolean b => (Node.boolean b).text
  | integer n => Write.integer n
  | floating x => Write.floatingText x
  | string t => Write.quoted t.bytes
  | array [] => [openBracket, closeBracket]
  | array (v :: vs) =>
    openBracket :: ((layout.line (layout.inner indent)).text ++
      (render layout (layout.inner indent) v ++ (renderItems layout (layout.inner indent) vs ++
        ((layout.line indent).text ++ [closeBracket]))))
  | object [] => [openBrace, closeBrace]
  | object ((key, v) :: ms) =>
    openBrace :: ((layout.line (layout.inner indent)).text ++ (Write.quoted key.bytes ++
      colon :: (layout.gap.text ++ (render layout (layout.inner indent) v ++
        (renderMembers layout (layout.inner indent) ms ++
          ((layout.line indent).text ++ [closeBrace]))))))

/-- The text of items behind the first. -/
def renderItems (layout : Layout) (indent : Nat) : List Value → Bytes
  | [] => []
  | v :: vs =>
    comma :: ((layout.line indent).text ++
      (render layout indent v ++ renderItems layout indent vs))

/-- The text of members behind the first. -/
def renderMembers (layout : Layout) (indent : Nat) : Members → Bytes
  | [] => []
  | (key, v) :: ms =>
    comma :: ((layout.line indent).text ++ (Write.quoted key.bytes ++
      colon :: (layout.gap.text ++ (render layout indent v ++ renderMembers layout indent ms))))

end

/-- The text of a member. -/
def renderMember (layout : Layout) (indent : Nat) (m : Member) : Bytes :=
  Write.quoted m.1.bytes ++ colon :: (layout.gap.text ++ m.2.render layout indent)

/-- Each further item is written behind a comma and a new line. -/
theorem renderItems_eq (layout : Layout) (indent : Nat) (vs : List Value) :
    renderItems layout indent vs =
      vs.flatMap fun v => comma :: ((layout.line indent).text ++ v.render layout indent) := by
  induction vs with
  | nil => rfl
  | cons v vs ih => simp [renderItems, ih]

/-- Each further member is written behind a comma and a new line. -/
theorem renderMembers_eq (layout : Layout) (indent : Nat) (ms : Members) :
    renderMembers layout indent ms =
      ms.flatMap fun m => comma :: ((layout.line indent).text ++ renderMember layout indent m) := by
  induction ms with
  | nil => rfl
  | cons m ms ih => simp [renderMembers, renderMember, ih]

/-- An object with members is its first member and the further ones, within braces on lines of their
own. -/
theorem render_object_cons (layout : Layout) (indent : Nat) (m : Member) (ms : Members) :
    (object (m :: ms)).render layout indent =
      openBrace :: ((layout.line (layout.inner indent)).text ++
        (renderMember layout (layout.inner indent) m ++
          (renderMembers layout (layout.inner indent) ms ++
            ((layout.line indent).text ++ [closeBrace])))) := by
  simp [render, renderMember]

end Value

namespace Write

open Value Classical

/-! ### Answers -/

/-- What a writer answers that writes the bytes if it may. -/
noncomputable def written (may : Prop) (out : Output) (bs : Bytes) : Except WriteError Output :=
  if may then .ok (out.append bs) else .error .nonFinite

/-- What may be written is. -/
theorem written_of {may : Prop} (h : may) (out : Output) (bs : Bytes) :
    written may out bs = .ok (out.append bs) :=
  if_pos h

/-- What may not be written is the writer's error. -/
theorem written_of_not {may : Prop} (h : ¬ may) (out : Output) (bs : Bytes) :
    written may out bs = .error .nonFinite :=
  if_neg h

/-- Only whether something may be written matters. -/
theorem written_congr {may may' : Prop} (h : may ↔ may') (out : Output) (bs : Bytes) :
    written may out bs = written may' out bs := by
  rw [propext h]

/-- Something has been written exactly when it may be, and then it stands behind the output. -/
theorem written_eq_ok_iff {may : Prop} {out out' : Output} {bs : Bytes} :
    written may out bs = .ok out' ↔ may ∧ out' = out.append bs := by
  by_cases h : may
  · simp [written, h, eq_comm]
  · simp [written, h]

/-- What is written behind a text is written with it. -/
theorem written_append (may : Prop) (out : Output) (bs bs' : Bytes) :
    written may (out.append bs) bs' = written may out (bs ++ bs') := by
  rw [written, written, Output.append_append]

/-- One writer after another. -/
theorem written_bind {may may' : Prop} {out : Output} {bs bs' : Bytes}
    {write : Output → Except WriteError Output}
    (h : write (out.append bs) = written may' (out.append bs) bs') :
    (written may out bs >>= write) = written (may ∧ may') out (bs ++ bs') := by
  by_cases hmay : may
  · rw [written_of hmay, ← written_append]
    exact h.trans (written_congr (and_iff_right hmay).symm _ _)
  · rw [written_of_not hmay, written_of_not fun h => hmay h.1]
    rfl

/-! ### Scalars -/

variable {allowNonFinite : Bool}

/-- What is looked at for a point or a power of ten is the text of the number. -/
theorem floatingSuffix_append (out : Output) (text : Bytes) :
    floatingSuffix (out.append text) out.size = out.append (Decimal.Style.asFloating text) := by
  rw [floatingSuffix, Output.since_append, Decimal.Style.asFloating]
  split
  · rfl
  · rw [Output.append_append]

/-- A float is written if it may be, as its text. -/
theorem floating_eq (allowNonFinite : Bool) (x : Binary64) (out : Output) :
    floating allowNonFinite x out =
      written (Allowed allowNonFinite (.floating x)) out (floatingText x) := by
  rw [floating, floatingText]
  by_cases hx : x.isFinite = true
  · rw [if_pos hx, if_pos hx, written_of (.inl hx), floatingSuffix_append]
    rfl
  · rw [if_neg hx, if_neg hx]
    cases allowNonFinite with
    | false =>
        have hno : ¬ Allowed false (.floating x) := by
          rintro (h | h)
          · exact hx h
          · cases h
        rw [written_of_not hno]
        rfl
    | true =>
        rw [written_of (.inr rfl)]
        simp only [Bool.not_true, Bool.false_eq_true, ↓reduceIte]
        split
        · rfl
        · split <;> rfl

/-- A scalar is written if it may be, as its text, in either layout and at any indent. -/
theorem scalar_eq (allowNonFinite : Bool) {v : Value} (hv : v.IsScalar) (layout : Layout)
    (indent : Nat) (out : Output) : scalar allowNonFinite v out =
      written (v.Everywhere (Allowed allowNonFinite)) out (v.render layout indent) := by
  rw [written_congr (everywhere_scalar hv)]
  cases v with
  | boolean b => cases b <;> exact (written_of trivial out _).symm
  | floating x => exact floating_eq allowNonFinite x out
  | array _ | object _ => exact hv.elim
  | _ => exact (written_of trivial out _).symm

/-! ### The compact layout -/

namespace Frame

/-- The text of what is left of a value. -/
def render : Frame → Bytes
  | ⟨.array vs, _ + 1⟩ => renderItems .compact 0 vs ++ [closeBracket]
  | ⟨.object ms, _ + 1⟩ => renderMembers .compact 0 ms ++ [closeBrace]
  | ⟨v, _⟩ => v.render .compact 0

/-- What is left of a scalar is all of it. -/
theorem render_scalar {v : Value} (hv : v.IsScalar) (index : Nat) :
    render ⟨v, index⟩ = v.render .compact 0 := by
  cases v with
  | array _ | object _ => exact hv.elim
  | _ => rfl

/-- A value is on the stack as a whole at first. -/
theorem render_zero (v : Value) : render { left := v } = v.render .compact 0 := by
  cases v <;> rfl

/-- Every floating point number in what is left may be written. -/
def Writable (allowNonFinite : Bool) (frame : Frame) : Prop :=
  frame.left.Everywhere (Allowed allowNonFinite)

theorem writable_array_nil (index : Nat) :
    Writable allowNonFinite ⟨.array [], index⟩ ↔ True :=
  iff_true_intro (everywhere_array.mpr ⟨trivial, List.forall_mem_nil _⟩)

/-- An array may be written if its first item and what follows it may. -/
theorem writable_array_cons (v : Value) (vs : List Value) (index index' : Nat) :
    Writable allowNonFinite ⟨.array (v :: vs), index⟩ ↔
      Writable allowNonFinite ⟨v, 0⟩ ∧ Writable allowNonFinite ⟨.array vs, index'⟩ := by
  simp [Writable, Allowed]

theorem writable_object_nil (index : Nat) :
    Writable allowNonFinite ⟨.object [], index⟩ ↔ True :=
  iff_true_intro (everywhere_object.mpr ⟨trivial, List.forall_mem_nil _⟩)

/-- An object may be written if its first value and what follows it may. -/
theorem writable_object_cons (key : Text) (v : Value) (ms : Members) (index index' : Nat) :
    Writable allowNonFinite ⟨.object ((key, v) :: ms), index⟩ ↔
      Writable allowNonFinite ⟨v, 0⟩ ∧ Writable allowNonFinite ⟨.object ms, index'⟩ := by
  simp [Writable, Allowed]

end Frame

/-- The answer does not change when the writer goes on to another stack. -/
theorem written_step {frames frames' : List Frame} {out : Output}
    (bs : Bytes) (hw : (∀ f ∈ frames, f.Writable allowNonFinite) ↔
      ∀ f ∈ frames', f.Writable allowNonFinite)
    (hr : frames.flatMap Frame.render = bs ++ frames'.flatMap Frame.render) :
    written (∀ f ∈ frames', f.Writable allowNonFinite) (out.append bs)
        (frames'.flatMap Frame.render) =
      written (∀ f ∈ frames, f.Writable allowNonFinite) out (frames.flatMap Frame.render) := by
  rw [written_append, ← hr]
  exact written_congr hw.symm _ _

/-- A key is written quoted, with a colon behind it. -/
theorem key_eq (out : Output) (t : Text) : key out t = out.append (quoted t.bytes ++ [colon]) := by
  rw [key, Output.push_eq, Output.append_append]

/-- What stands in front of a child: the beginning of the value or a comma. -/
def before (bracket : UInt8) : Nat → Bytes
  | 0 => [bracket]
  | _ + 1 => [comma]

/-- An opening bracket is put out once, before the first item. -/
theorem separate_begin (bracket : UInt8) (index : Nat) (out : Output) :
    separate index (begin bracket index out) = out.append (before bracket index) := by
  cases index <;> rfl

/-- What stands at the end of a value without children left: its beginning too, if it has none. -/
def ending (bracket closing : UInt8) : Nat → Bytes
  | 0 => [bracket, closing]
  | _ + 1 => [closing]

/-- An array or object without anything in it is its two brackets. -/
theorem push_begin (bracket closing : UInt8) (index : Nat) (out : Output) :
    (begin bracket index out).push closing = out.append (ending bracket closing index) := by
  cases index <;> rfl

/-- What is no array and no object is a scalar. -/
theorem isScalar_of_not {v : Value} (ha : v = .array [] → False)
    (ha' : ∀ u us, v = .array (u :: us) → False) (ho : v = .object [] → False)
    (ho' : ∀ k u ms, v = .object ((k, u) :: ms) → False) : v.IsScalar := by
  cases v with
  | array items =>
      cases items with
      | nil => exact ha rfl
      | cons u us => exact ha' u us rfl
  | object members =>
      cases members with
      | nil => exact ho rfl
      | cons m ms => exact ho' m.1 m.2 ms rfl
  | _ => trivial

/-- **The compact writer writes what is left on its stack.** -/
theorem compact_eq (allowNonFinite : Bool) (frames : List Frame) (out : Output) :
    compact allowNonFinite frames out =
      written (∀ f ∈ frames, f.Writable allowNonFinite) out (frames.flatMap Frame.render) := by
  -- along the writer's own recursion; each step moves bytes from the stack to the output
  fun_induction compact allowNonFinite frames out with
  | case1 out => exact (if_pos fun _ hf => nomatch hf).symm
  | case2 out index frames ih =>
      rw [ih, push_begin]
      refine written_step _ ?_ ?_
      · rw [List.forall_mem_cons, Frame.writable_array_nil, true_and]
      · cases index <;> rfl
  | case3 out v vs index frames ih =>
      rw [ih, separate_begin]
      refine written_step _ ?_ ?_
      · simp only [List.forall_mem_cons, Frame.writable_array_cons v vs index (index + 1),
          and_assoc]
      · cases index <;>
          simp [Frame.render, before, Value.render, renderItems, Layout.line, Layout.inner,
            Blanks.none]
  | case4 out index frames ih =>
      rw [ih, push_begin]
      refine written_step _ ?_ ?_
      · rw [List.forall_mem_cons, Frame.writable_object_nil, true_and]
      · cases index <;> rfl
  | case5 out k v ms index frames ih =>
      rw [ih, separate_begin, key_eq, Output.append_append]
      refine written_step _ ?_ ?_
      · simp only [List.forall_mem_cons, Frame.writable_object_cons k v ms index (index + 1),
          and_assoc]
      · cases index <;>
          simp [Frame.render, before, Value.render, renderMembers, Layout.line, Layout.gap,
            Layout.inner, Blanks.none]
  | case6 out v index frames ha ha' ho ho' e he =>
      -- a scalar that may not be written stops the writer, whatever else is on the stack
      rw [scalar_eq allowNonFinite (isScalar_of_not ha ha' ho ho') .compact 0] at he
      cases e
      refine (written_of_not (fun h => ?_) _ _).symm
      have hv : v.Everywhere (Allowed allowNonFinite) := h ⟨v, index⟩ List.mem_cons_self
      rw [written_of hv] at he
      cases he
  | case7 out v index frames ha ha' ho ho' out' hout ih =>
      have hv := isScalar_of_not ha ha' ho ho'
      rw [scalar_eq allowNonFinite hv .compact 0] at hout
      obtain ⟨hyes, rfl⟩ := written_eq_ok_iff.mp hout
      rw [ih]
      refine written_step _ (List.forall_mem_cons.trans (and_iff_right hyes)) ?_
      rw [List.flatMap_cons, Frame.render_scalar hv]

/-! ### The pretty layout -/

/-- The pretty writer writes the value, at every indentation. -/
def WritesPretty (allowNonFinite : Bool) (v : Value) : Prop :=
  ∀ indent out, pretty allowNonFinite indent v out =
    written (v.Everywhere (Allowed allowNonFinite)) out (v.render .pretty indent)

/-- A scalar is written on one line. -/
theorem pretty_scalar {v : Value} (hv : v.IsScalar) : WritesPretty allowNonFinite v := by
  intro indent out
  rw [← scalar_eq allowNonFinite hv]
  cases v with
  | array _ | object _ => exact hv.elim
  | _ => rfl

/-- A line that is not the last one ends in a comma. -/
theorem endLine_eq (out : Output) : endLine out false = out.append [comma, newline] := rfl

/-- The closing bracket stands on a line of its own. -/
theorem closing_eq (indent : Nat) (bracket : UInt8) (out : Output) :
    (pure ((indentation out indent).push bracket) : Except WriteError Output) =
      written True out (List.replicate indent space ++ [bracket]) := by
  rw [written_of trivial, ← Output.append_append]
  rfl

/-- Items stand on a line each. -/
theorem prettyItems_eq {v : Value} {vs : List Value}
    (ih : ∀ u ∈ v :: vs, WritesPretty allowNonFinite u) (indent : Nat) (out : Output) :
    prettyItems allowNonFinite indent (v :: vs) out =
      written (∀ u ∈ v :: vs, u.Everywhere (Allowed allowNonFinite)) out
        (List.replicate indent space ++ (v.render .pretty indent ++
          (renderItems .pretty indent vs ++ [newline]))) := by
  induction vs generalizing v out with
  | nil =>
      have hend : prettyItems allowNonFinite indent [] (endLine
          ((indentation out indent).append (v.render .pretty indent)) true) =
          written True ((indentation out indent).append (v.render .pretty indent)) [newline] := by
        rw [written_of trivial]
        rfl
      rw [prettyItems, ih v List.mem_cons_self]
      refine (written_bind hend).trans ?_
      rw [indentation, written_append]
      refine written_congr ?_ _ _
      simp
  | cons u us ihItems =>
      have hrest : ∀ out : Output, prettyItems allowNonFinite indent (u :: us) (endLine out false) =
          written (∀ w ∈ u :: us, w.Everywhere (Allowed allowNonFinite)) out
            ([comma, newline] ++ (List.replicate indent space ++ (u.render .pretty indent ++
              (renderItems .pretty indent us ++ [newline])))) := by
        intro out
        rw [ihItems fun w hw => ih w (List.mem_cons_of_mem _ hw), endLine_eq, written_append]
      rw [prettyItems, ih v List.mem_cons_self]
      refine (written_bind (hrest _)).trans ?_
      rw [indentation, written_append, written_congr List.forall_mem_cons.symm]
      congr 1
      simp [renderItems, Layout.line]

/-- What stands in front of a member's value. -/
theorem memberLine_eq (indent : Nat) (t : Text) (out : Output) :
    (((indentation out indent).append (quoted t.bytes)).push colon).push space =
      out.append (List.replicate indent space ++ (quoted t.bytes ++ [colon, space])) := by
  rw [indentation, Output.push_eq, Output.push_eq, Output.append_append, Output.append_append,
    Output.append_append]
  simp

/-- Members stand on a line each. -/
theorem prettyMembers_eq {t : Text} {v : Value} {ms : Members}
    (ih : ∀ m ∈ (t, v) :: ms, WritesPretty allowNonFinite m.2) (indent : Nat) (out : Output) :
    prettyMembers allowNonFinite indent ((t, v) :: ms) out =
      written (∀ m ∈ (t, v) :: ms, m.2.Everywhere (Allowed allowNonFinite)) out
        (List.replicate indent space ++ (quoted t.bytes ++ colon :: space ::
          (v.render .pretty indent ++ (renderMembers .pretty indent ms ++ [newline])))) := by
  induction ms generalizing t v out with
  | nil =>
      have hend : ∀ out : Output, prettyMembers allowNonFinite indent [] (endLine out true) =
          written True out [newline] := by
        intro out
        rw [written_of trivial]
        rfl
      rw [prettyMembers, memberLine_eq, ih (t, v) List.mem_cons_self]
      refine (written_bind (hend _)).trans ?_
      rw [written_append, and_true, written_congr List.forall_mem_singleton]
      congr 1
      simp only [renderMembers, List.append_assoc, List.cons_append, List.nil_append]
  | cons m ms ihMembers =>
      obtain ⟨t', u⟩ := m
      have hrest : ∀ out : Output, prettyMembers allowNonFinite indent ((t', u) :: ms)
          (endLine out false) =
          written (∀ m ∈ (t', u) :: ms, m.2.Everywhere (Allowed allowNonFinite)) out
            ([comma, newline] ++ (List.replicate indent space ++ (quoted t'.bytes ++ colon ::
              space :: (u.render .pretty indent ++
                (renderMembers .pretty indent ms ++ [newline]))))) := by
        intro out
        rw [ihMembers fun m hm => ih m (List.mem_cons_of_mem _ hm), endLine_eq, written_append]
      rw [prettyMembers, memberLine_eq, ih (t, v) List.mem_cons_self]
      refine (written_bind (hrest _)).trans ?_
      rw [written_append]
      conv => rhs; rw [written_congr List.forall_mem_cons]
      congr 1
      simp [renderMembers, Layout.line, Layout.gap]

/-- **The pretty writer writes the value.** -/
theorem pretty_eq (v : Value) : WritesPretty allowNonFinite v := by
  induction v with
  | null | boolean _ | integer _ | floating _ | string _ => exact pretty_scalar trivial
  | array items ih =>
      intro indent out
      cases items with
      | nil =>
          rw [pretty, written_of (everywhere_array.mpr ⟨trivial, List.forall_mem_nil _⟩)]
          rfl
      | cons v vs =>
          rw [pretty, prettyItems_eq ih]
          refine (written_bind (closing_eq indent _ _)).trans ?_
          rw [Output.push_eq, Output.push_eq, written_append, written_append, and_true]
          rw [written_congr (everywhere_array.trans (and_iff_right trivial))]
          congr 1
          simp [render, Layout.line, Layout.inner]
  | object members ih =>
      intro indent out
      cases members with
      | nil =>
          rw [pretty, written_of (everywhere_object.mpr ⟨trivial, List.forall_mem_nil _⟩)]
          rfl
      | cons m ms =>
          rw [pretty, prettyMembers_eq ih]
          refine (written_bind (closing_eq indent _ _)).trans ?_
          rw [Output.push_eq, Output.push_eq, written_append, written_append, and_true]
          rw [written_congr (everywhere_object.trans (and_iff_right trivial))]
          congr 1
          simp [render, Layout.line, Layout.inner, Layout.gap]

end Write

namespace Value

/-! ### Both layouts -/

/-- **Writing appends the rendered value** when every floating point number in it may be written,
and is an error otherwise. -/
theorem writeTo_eq (v : Value) (options : WriteOptions) (out : Output) :
    v.writeTo options out = Write.written (v.Everywhere (Allowed options.allowNonFinite)) out
      (v.render options.layout 0) := by
  rw [writeTo]
  cases options.layout with
  | compact =>
      dsimp only
      rw [Write.compact_eq, List.flatMap_singleton, Write.Frame.render_zero]
      exact Write.written_congr List.forall_mem_singleton _ _
  | pretty => exact Write.pretty_eq v 0 out

/-- A value can be written exactly when every floating point number in it may be. -/
theorem write_eq_ok_iff {v : Value} {options : WriteOptions} {bs : Bytes} :
    v.write options = .ok bs ↔
      v.Everywhere (Allowed options.allowNonFinite) ∧ bs = v.render options.layout 0 := by
  rw [write, writeTo_eq]
  by_cases h : v.Everywhere (Allowed options.allowNonFinite)
  · rw [Write.written_of h]
    simp [Except.map, h, eq_comm]
  · rw [Write.written_of_not h]
    simp [Except.map, h]

/-! ### Twins are written alike -/

variable {layout : Layout}

/-- Items that are twins are written alike. -/
theorem twinItems_render {vs : List Value}
    (ih : ∀ v ∈ vs, ∀ {w}, Twin v w → ∀ indent, w.render layout indent = v.render layout indent) :
    ∀ {ws : List Value}, TwinItems vs ws → ∀ indent,
      renderItems layout indent ws = renderItems layout indent vs := by
  induction vs with
  | nil =>
      intro ws h indent
      rw [h.nil_inv]
  | cons v vs ihItems =>
      intro ws h indent
      obtain ⟨w, ws, rfl, hv, hvs⟩ := h.cons_inv
      rw [renderItems, renderItems, ih v List.mem_cons_self hv,
        ihItems (fun u hu => ih u (List.mem_cons_of_mem _ hu)) hvs]

theorem twinMembers_render {ms : Members}
    (ih : ∀ m ∈ ms, ∀ {w}, Twin m.2 w → ∀ indent,
      w.render layout indent = m.2.render layout indent) :
    ∀ {ns : Members}, TwinMembers ms ns → ∀ indent,
      renderMembers layout indent ns = renderMembers layout indent ms := by
  induction ms with
  | nil =>
      intro ns h indent
      rw [h.nil_inv]
  | cons m ms ihMembers =>
      intro ns h indent
      obtain ⟨n, ns, rfl, hkey, hv, hms⟩ := h.cons_inv
      rw [renderMembers, renderMembers, ← hkey, ih m List.mem_cons_self hv,
        ihMembers (fun u hu => ih u (List.mem_cons_of_mem _ hu)) hms]

/-- **Twins are written alike.** -/
theorem Twin.render_eq {v : Value} : ∀ {w : Value}, Twin v w → ∀ indent,
    w.render layout indent = v.render layout indent := by
  induction v with
  | null =>
      intro w h indent
      rw [h.null_inv]
  | boolean b =>
      intro w h indent
      rw [h.boolean_inv]
  | integer n =>
      intro w h indent
      rw [h.integer_inv]
  | floating x =>
      intro w h indent
      obtain ⟨y, rfl, rfl | ⟨hx, hy⟩⟩ := h.floating_inv
      · rfl
      · simp [render, Write.floatingText, Binary64.isFinite_of_isNaN, hx, hy]
  | string t =>
      intro w h indent
      obtain ⟨t', rfl, ht⟩ := h.string_inv
      rw [render, render, ht]
  | array items ih =>
      intro w h indent
      obtain ⟨ws, rfl, hws⟩ := h.array_inv
      cases items with
      | nil => rw [hws.nil_inv]
      | cons v vs =>
          obtain ⟨w, ws, rfl, hv, hvs⟩ := hws.cons_inv
          rw [render, render, ih v List.mem_cons_self hv,
            twinItems_render (fun u hu => ih u (List.mem_cons_of_mem _ hu)) hvs]
  | object members ih =>
      intro w h indent
      obtain ⟨ns, rfl, hns⟩ := h.object_inv
      cases members with
      | nil => rw [hns.nil_inv]
      | cons m ms =>
          obtain ⟨n, ns, rfl, hkey, hv, hms⟩ := hns.cons_inv
          rw [render, render, ← hkey, ih m List.mem_cons_self hv,
            twinMembers_render (fun u hu => ih u (List.mem_cons_of_mem _ hu)) hms]

/-- What is written for a value is written for its twin. -/
theorem Twin.write_eq_ok {v w : Value} {options : WriteOptions} {bs : Bytes} (h : Twin v w)
    (hv : v.write options = .ok bs) : w.write options = .ok bs := by
  obtain ⟨hallowed, rfl⟩ := write_eq_ok_iff.mp hv
  exact write_eq_ok_iff.mpr ⟨h.everywhere Twin.allowed hallowed, (h.render_eq 0).symm⟩

end Value

end JsonTree
