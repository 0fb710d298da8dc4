import JsonTree.Document
import JsonTree.Proofs.Footprint
import JsonTree.Proofs.Lockstep
import JsonTree.Proofs.Reading

/-!
# Relocation — reading depends on the bytes alone

The same bytes may lie in several buffers.  Two readers stand beside each other (`Beside`) when they
are at one place of two documents with the same bytes, with the same options and the same error on
record.  Every operation keeps them so, and answers alike but for where a string lies
(`Beside.run`), so the builder keeps them so in lockstep, and the end is checked alike.

* `lockstep_beside`, `beside_build`: two runs of the builder beside each other.
* `parse_eq_of_bytes_eq`: documents with the same bytes are read alike, errors included.
-/

namespace JsonTree

/-- What a token tells, wherever its characters lie. -/
def StringToken.told (t : StringToken) : Bytes × Bool :=
  (t.characters.bytes, t.borrowed)

theorem Reply.map_map {α β γ : Type} (f : α → β) (g : β → γ) (reply : Reply α) :
    (reply.map f).map g = reply.map (g ∘ f) := by
  cases reply with
  | key next => exact congrArg Reply.key (Option.map_map g f next)
  | _ => rfl

/-- Keys that tell the same are both there or both missing. -/
theorem isSome_of_told {key key' : Option StringToken}
    (h : key'.map StringToken.told = key.map StringToken.told) : key.isSome = key'.isSome := by
  simpa using (congrArg Option.isSome h).symm

namespace Reader

open Inspection (Cursor Found)

/-- At one place of two documents with the same bytes. -/
structure Beside (s t : Session Reader) : Prop where
  bytes : t.state.source.bytes = s.state.source.bytes
  options : t.state.options = s.state.options
  position : t.state.position = s.state.position
  fault : t.fault = s.fault
  inside : s.state.position ≤ s.state.source.size

/-- Fresh readers of the same bytes are beside each other. -/
theorem beside_start {source source' : Slice} (h : source'.bytes = source.bytes)
    (options : ReadOptions) : Beside (start source options) (start source' options) :=
  ⟨h, rfl, rfl, rfl, Nat.zero_le _⟩

namespace Beside

variable {s t : Session Reader}

theorem size_eq (h : Beside s t) : t.state.source.size = s.state.source.size := by
  rw [← Slice.length_bytes, h.bytes, Slice.length_bytes]

theorem cursor_eq (h : Beside s t) : Cursor.of t = Cursor.of s := by
  rw [Cursor.of, Cursor.of, h.position, h.fault]

theorem failed_eq (h : Beside s t) : s.failed = t.failed :=
  congrArg Option.isSome h.fault.symm

/-- Readers that come to one cursor in their documents are beside each other again. -/
theorem of_cursor_eq (h : Beside s t) {s' t' : Session Reader} (hs : Advances s s')
    (ht : Advances t t') (hcursor : Cursor.of t' = Cursor.of s') : Beside s' t' := by
  refine ⟨?_, ?_, congrArg Cursor.position hcursor, congrArg Cursor.fault hcursor,
    hs.inside h.inside⟩
  · rw [ht.reaches.source, h.bytes, hs.reaches.source]
  · rw [ht.reaches.options, h.options, hs.reaches.options]

/-- What is found is the same string in both documents. -/
theorem told_eq (h : Beside s t) (found : Found) :
    (found.token t.state.source).told = (found.token s.state.source).told := by
  cases found with
  | part i n =>
      refine Prod.ext ?_ rfl
      change (t.state.source.sub i n).bytes = (s.state.source.sub i n).bytes
      rw [Slice.bytes_sub, Slice.bytes_sub, h.bytes]
  | loose bs => rfl

/-- **One operation keeps readers beside each other**, and its replies tell the same. -/
theorem run (h : Beside s t) (op : Operation) : Beside (op.run s).2 (op.run t).2 ∧
    (op.run t).1.map StringToken.told = (op.run s).1.map StringToken.told := by
  obtain ⟨reply, hgives, hreply⟩ := op.follows h.inside
  obtain ⟨reply', hgives', hreply'⟩ := op.follows (s := t) (by
    rw [h.position, h.size_eq]
    exact h.inside)
  rw [h.size_eq, h.options, h.cursor_eq] at hgives'
  obtain ⟨rfl, hcursor⟩ := Prod.mk.inj (hgives.eq_of_bytes_eq h.bytes hgives')
  refine ⟨h.of_cursor_eq (op.advances s) (op.advances t) hcursor, ?_⟩
  rw [hreply, hreply', Reply.map_map, Reply.map_map]
  exact congrArg reply'.map (funext h.told_eq)

/-- An error at the cursor is told alike. -/
theorem failHere (h : Beside s t) (code : ErrorCode) :
    Beside (failHere s code) (failHere t code) := by
  have hs := Inspection.gives_failHere s code
  have ht := Inspection.gives_failHere t code
  rw [h.size_eq, h.cursor_eq] at ht
  exact h.of_cursor_eq (advances_failHere s code) (advances_failHere t code)
    (hs.eq_of_bytes_eq h.bytes ht)

/-! ### The builder -/

/-- A number is built alike. -/
theorem number (h : Beside s t) :
    Beside (Build.number tokens s).2 (Build.number tokens t).2 := by
  obtain ⟨h₁, htoken⟩ := h.run .readInteger
  have hsame : (tokens.readInteger t).1 = (tokens.readInteger s).1 := Reply.integer.inj htoken
  have h₁ : Beside (tokens.readInteger s).2 (tokens.readInteger t).2 := h₁
  rw [Build.number, Build.number]
  generalize tokens.readInteger s = x at hsame h₁ ⊢
  generalize tokens.readInteger t = y at hsame h₁ ⊢
  obtain ⟨token, s₁⟩ := x
  obtain ⟨token', t₁⟩ := y
  obtain rfl : token' = token := hsame
  dsimp only at h₁ ⊢
  rw [← h₁.failed_eq]
  split
  · exact h₁
  · cases token' with
    | value n => exact h₁
    | tooLarge => exact h₁.failHere .integerTooLarge
    | notInteger => exact (h₁.run .readFloat).1

/-- A scalar is built alike. -/
theorem scalar (h : Beside s t) (kind : Kind) :
    Beside (Build.scalar tokens kind s).2 (Build.scalar tokens kind t).2 := by
  cases kind with
  | null => exact (h.run .readNull).1
  | true => exact (h.run (.readBool .true)).1
  | false => exact (h.run (.readBool .false)).1
  | string => exact (h.run .readString).1
  | number => exact h.number
  | infinity | nan => exact (h.run .readFloat).1
  | minus => exact h.failHere .unresolvedMinus
  | array | object | other => exact h.failHere .unsupportedToken

end Beside

/-- **The builder keeps readers beside each other.** -/
theorem lockstep_beside :
    Build.Lockstep tokens Beside (fun _ _ => True) fun _ => False where
  failed h := h.failed_eq
  tooDeep _ h _ _ := h.failHere .nestingTooDeep
  scalar kind _ _ h _ _ := .inl (h.scalar kind)
  peek h _ :=
    have ⟨h₁, hkind⟩ := h.run .peek
    .inr ⟨h₁, fun _ => ⟨(Reply.kind.inj hkind).symm, trivial⟩⟩
  openArray h _ _ :=
    have ⟨h₁, hnext⟩ := h.run .openArray
    .inr ⟨h₁, fun _ => ⟨(Reply.item.inj hnext).symm, fun _ _ => trivial⟩⟩
  nextItem h _ :=
    have ⟨h₁, hnext⟩ := h.run .nextItem
    .inr ⟨h₁, fun _ => ⟨(Reply.item.inj hnext).symm, fun _ _ => trivial⟩⟩
  openObject h _ _ :=
    have ⟨h₁, hnext⟩ := h.run .openObject
    .inr ⟨h₁, fun _ => isSome_of_told (Reply.key.inj hnext)⟩
  nextKey h _ :=
    have ⟨h₁, hnext⟩ := h.run .nextKey
    .inr ⟨h₁, fun _ => isSome_of_told (Reply.key.inj hnext)⟩
  lost_nextItem h _ := h.elim
  lost_nextKey h _ := h.elim

/-- A value is built alike. -/
theorem beside_build {s t : Session Reader} (limit : Nat) (h : Beside s t)
    (hs : s.failed = false) : Beside (build limit s).2 (build limit t).2 :=
  (lockstep_beside.build bounded limit h hs).resolve_right id

/-- What follows the value is looked at alike. -/
theorem finish_eq_of_beside {s t : Session Reader} (h : Beside s t) :
    (finish t).1 = (finish s).1 ∧ (finish t).2.fault = (finish s).2.fault := by
  obtain ⟨hfinish, hended⟩ := h.run .finish
  exact ⟨Reply.ended.inj hended, hfinish.fault⟩

end Reader

/-! ### Whole documents -/

open Reader

/-- How reading a document comes out. -/
inductive Outcome (source : Slice) (options : ReadOptions) : Value → Fault → Prop where
  /-- A value is built, and behind it there is nothing amiss. -/
  | read {v : Value} {s s' : Session Reader} :
      build options.maxDepth (start source options) = (v, s) → s.fault = none →
      finish s = (true, s') → s'.fault = none → Outcome source options v none
  /-- No value is built. -/
  | unbuilt {s : Session Reader} {e : Error} :
      build options.maxDepth (start source options) = (.null, s) → s.fault = some e →
      Outcome source options .null (some e)
  /-- A value is built, but behind it there is what may not follow. -/
  | unfinished {v : Value} {s s' : Session Reader} {e : Error} :
      build options.maxDepth (start source options) = (v, s) → s.fault = none →
      finish s = (false, s') → s'.fault = some e → Outcome source options .null (some e)

/-- No error is left exactly when nothing follows the value. -/
theorem fault_finish (s : Session Reader) (h : s.fault = none) :
    (finish s).2.fault = none ↔ (finish s).1 = true := by
  rw [finish]
  split
  · have hf : (failHere (skipBlank s) .trailingCharacters).fault ≠ none := by
      rw [← Option.isSome_iff_ne_none]
      exact failed_failHere _ _
    simp [hf]
  · exact iff_of_true h rfl

/-- Reading a document comes out in one of the three ways. -/
theorem exists_outcome (source : Slice) (options : ReadOptions) :
    ∃ v fault, Outcome source options v fault := by
  rcases hbuild : build options.maxDepth (start source options) with ⟨v, s⟩
  rcases hs : s.fault with _ | e
  · have hiff := fault_finish s hs
    rcases hfinish : finish s with ⟨ended, s'⟩
    rw [hfinish] at hiff
    cases ended with
    | true => exact ⟨v, none, .read hbuild hs hfinish (hiff.mpr rfl)⟩
    | false =>
        obtain ⟨e, he⟩ := Option.ne_none_iff_exists'.mp (mt hiff.mp Bool.false_ne_true)
        exact ⟨.null, some e, .unfinished hbuild hs hfinish he⟩
  · have hrun : Build.whole? tokens options.maxDepth (bounded.steps (start source options)) none
        (start source options) = some (v, s) := by
      rw [← hbuild]
      exact (Option.some_get _).symm
    obtain rfl : v = .null := Build.null_of_failed hrun (by rw [Session.failed, hs]; rfl)
    exact ⟨.null, some e, .unbuilt hbuild hs⟩

/-- The outcome is what the parser answers. -/
theorem Outcome.parse_eq {source : Slice} {options : ReadOptions} {v : Value} {fault : Fault}
    (h : Outcome source options v fault) : parse source options = ⟨v, fault⟩ := by
  cases h with
  | read hbuild hs hfinish hs' => simp [parse, hbuild, Session.failed, hs, hfinish, hs']
  | unbuilt hbuild hs => simp [parse, hbuild, Session.failed, hs]
  | unfinished hbuild hs hfinish hs' => simp [parse, hbuild, Session.failed, hs, hfinish, hs']

/-- With an error there is no value. -/
theorem Outcome.eq_null {source : Slice} {options : ReadOptions} {v : Value} {e : Error}
    (h : Outcome source options v (some e)) : v = .null := by
  cases h <;> rfl

/-- The same errors are found in the same bytes. -/
theorem fault_eq_of_bytes_eq {source source' : Slice} (h : source'.bytes = source.bytes)
    (options : ReadOptions) : (parse source' options).fault = (parse source options).fault := by
  have hbuild := beside_build options.maxDepth (beside_start h options) rfl
  rw [parse, parse]
  generalize build options.maxDepth (start source options) = x at hbuild ⊢
  generalize build options.maxDepth (start source' options) = y at hbuild ⊢
  obtain ⟨v, s⟩ := x
  obtain ⟨v', s'⟩ := y
  obtain ⟨hended, hfault⟩ := finish_eq_of_beside hbuild
  dsimp only at hbuild hended hfault ⊢
  rw [← hbuild.failed_eq, hended, apply_ite Parsed.fault, apply_ite Parsed.fault,
    apply_ite Parsed.fault, apply_ite Parsed.fault, hbuild.fault, hfault]

/-- **Documents with the same bytes are read alike**, to the same value or with the same error. -/
theorem parse_eq_of_bytes_eq {source source' : Slice} (h : source'.bytes = source.bytes)
    (options : ReadOptions) : parse source' options = parse source options := by
  obtain ⟨v, fault, hout⟩ := exists_outcome source options
  obtain ⟨v', fault', hout'⟩ := exists_outcome source' options
  have hfault := fault_eq_of_bytes_eq h options
  rw [hout.parse_eq, hout'.parse_eq] at hfault ⊢
  obtain rfl : fault' = fault := hfault
  cases fault' with
  | none =>
      -- whether a value is read, and which, is said of the bytes
      have hread := parse_eq_ok_iff.mp hout.parse_eq
      rw [← h] at hread
      rw [← hout'.parse_eq]
      exact parse_eq_ok_iff.mpr hread
  | some e => rw [hout.eq_null, hout'.eq_null]

end JsonTree
