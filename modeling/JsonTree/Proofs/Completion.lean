import JsonTree.Proofs.Completion.Reader
import JsonTree.Proofs.Written

/-!
# Completion — documents that end too early

A document that is rejected because it ends too early can be completed: some more bytes make it a
document that is accepted.  The exception are misspelt words near its end, which are told the same
way but are never accepted, whatever follows them.

* `Reader.completes_of_answer`: what is left where a run of the builder begins can be completed, if
  the run finds the end too early.
* `Reader.lockstep_misspelt`: over a longer document a misspelt word is an error as well.
* `can_be_completed_iff`: a document that ends too early can be completed unless it ends in a
  misspelt word.
-/

namespace JsonTree

open Ascii Bytes

namespace Build

variable {σ : Type} {src : TokenSource σ} {limit steps depth : Nat} {s s' : Session σ} {v : Value}

/-- A run ends where an error has been recorded, or goes on. -/
theorem ends_or_goes_on {rest : Option (Value × Session σ)}
    (h : (if s.failed then some (.null, s) else rest) = some (v, s')) :
    s' = s ∨ s.failed = false ∧ rest = some (v, s') := by
  cases hs : s.failed with
  | true =>
      rw [if_pos hs] at h
      exact .inl (Prod.mk.inj (Option.some.inj h)).2.symm
  | false =>
      rw [if_neg (by simp [hs])] at h
      exact .inr ⟨rfl, h⟩

/-- Behind the last item the reader stays where it is. -/
theorem ends_of_items_none {done : List Value}
    (h : items src limit steps depth done none s = some (v, s')) : s' = s := by
  cases steps <;> cases h
  rfl

theorem ends_of_members_none {done : KeyTable}
    (h : members src limit steps depth done none s = some (v, s')) : s' = s := by
  cases steps <;> cases h
  rfl

end Build

namespace Reader

variable {s s₁ s' : Session Reader} {limit : Nat}

/-! ### Completing what is left -/

/-- The end has been found too early, and not at a misspelt word of the document. -/
structure Unfinished (source : Slice) (s : Session Reader) : Prop where
  early : EndsEarly s
  spelt : ¬ AtMisspelt source s

/-- What is completed may have something in front of it. -/
theorem Passes.completes {p q : Bytes → Prop} {front : Bytes} (hfront : Passes front s s₁)
    (h : Completes p (rest s₁)) (hq : ∀ text, p text → q (front ++ text)) :
    Completes q (rest s) := by
  rw [hfront.rest_eq]
  exact h.preceded hq

/-- What is left to the reader can be completed to a text of the grammar, under its options. -/
abbrev CompletesAt (p : Bool → Nat → Bytes → Prop) (room : Nat) (s : Session Reader) : Prop :=
  Completes (p s.state.options.allowNonFinite room) (rest s)

/-- A scalar that is cut short, and not misspelt, can be completed. -/
theorem completes_scalar {kind : Kind} {room : Nat} (hs : s.failed = false)
    (hready : Ready kind s) (h : Unfinished s.state.source (Build.scalar tokens kind s).2) :
    CompletesAt NodeText room s := by
  obtain ⟨hearly, hspelt⟩ := h
  rcases scalar_of_endsEarly hs hready hearly with ⟨word, hmem, hhead, heq⟩ | heq
  · rw [heq] at hearly hspelt
    exact (completes_readWord hmem hs hhead hearly).resolve_left hspelt
  · rw [heq] at hearly
    refine (cutShort_readString hs hearly).completes.followed [] ?_
    rintro _ ⟨l, rfl⟩
    rw [List.append_nil]
    exact .string l

/-! ### Behind an operation

Where what is left behind an operation can be completed, so can what was left before it. -/

section

variable {kind : Kind} {token : StringToken} {room : Nat}

/-- If the items behind an opening bracket can be completed, the array can. -/
theorem completesAt_of_openArray (hs : s.failed = false) (hopen : openArray s = (some kind, s₁))
    (hs₁ : s₁.failed = false)
    (h : Ready kind s₁ → s₁.state.source = s.state.source → CompletesAt ItemText room s₁) :
    CompletesAt NodeText (room + 1) s := by
  obtain ⟨⟨back, hr⟩, ⟨hnone, -⟩ | ⟨_, hkind, hbegins⟩⟩ := (openArray_eq_iff hs).mp ⟨hopen, hs₁⟩
  · cases hnone
  cases hkind
  obtain ⟨w, hw, hready⟩ := begins_iff_passes.mp hbegins
  have hfront := hw.cons hr
  refine hfront.completes (h hready hfront.source_eq) fun text htext => ?_
  rw [hfront.options_eq] at htext
  exact .array (htext.blanks w)

/-- If the items behind a comma can be completed, the rest of the array can. -/
theorem completesAt_of_nextItem (hs : s.failed = false) (hnext : nextItem s = (some kind, s₁))
    (hs₁ : s₁.failed = false)
    (h : Ready kind s₁ → s₁.state.source = s.state.source → CompletesAt ItemText room s₁) :
    CompletesAt ItemsText room s := by
  rcases (nextItem_eq_iff hs).mp ⟨hnext, hs₁⟩ with ⟨hnone, -⟩ | ⟨_, s₂, hkind, hcomma, hbegins⟩
  · cases hnone
  cases hkind
  obtain ⟨w, hw⟩ := mark_iff_passes.mp hcomma
  obtain ⟨w', hw', hready⟩ := begins_iff_passes.mp hbegins
  have hfront := hw.append hw'
  refine hfront.completes (h hready hfront.source_eq) fun text htext => ?_
  rw [hfront.options_eq] at htext
  simpa using ItemsText.comma w (htext.blanks w')

theorem completesAt_of_openObject (hs : s.failed = false)
    (hopen : openObject s = (some token, s₁)) (hs₁ : s₁.failed = false)
    (h : s₁.state.source = s.state.source → CompletesAt MemberText room s₁) :
    CompletesAt NodeText (room + 1) s := by
  obtain ⟨⟨back, hr⟩, ⟨hnone, -⟩ | ⟨l, token, -, hkey⟩⟩ := (openObject_eq_iff hs).mp ⟨hopen, hs₁⟩
  · cases hnone
  obtain ⟨w, w₁, s₂, hw, -, hl⟩ := key_iff_passes.mp hkey
  have hfront := (hw.append hl).cons hr
  refine hfront.completes (h hfront.source_eq) fun text htext => ?_
  rw [hfront.options_eq] at htext
  exact .object ⟨_, text, rfl, ⟨w, l, w₁, rfl⟩, htext⟩

theorem completesAt_of_nextKey (hs : s.failed = false) (hnext : nextKey s = (some token, s₁))
    (hs₁ : s₁.failed = false)
    (h : s₁.state.source = s.state.source → CompletesAt MemberText room s₁) :
    CompletesAt FieldsText room s := by
  rcases (nextKey_eq_iff hs).mp ⟨hnext, hs₁⟩ with ⟨hnone, -⟩ | ⟨l, token, s₂, -, hcomma, hkey⟩
  · cases hnone
  obtain ⟨w, hw⟩ := mark_iff_passes.mp hcomma
  obtain ⟨w₁, w₂, s₃, hw₁, -, hl⟩ := key_iff_passes.mp hkey
  have hfront := hw.append (hw₁.append hl)
  refine hfront.completes (h hfront.source_eq) fun text htext => ?_
  rw [hfront.options_eq] at htext
  simpa using FieldsText.comma w ⟨_, text, rfl, ⟨w₁, l, w₂, rfl⟩, htext⟩

theorem completesAt_of_peek {p : Bool → Nat → Bytes → Prop}
    (hblanks : ∀ {allow bs} (w : Blanks), p allow room bs → p allow room (w.text ++ bs))
    (hs : s.failed = false) (hpeek : peek s = (kind, s₁)) (hs₁ : s₁.failed = false)
    (h : Ready kind s₁ → s₁.state.source = s.state.source → CompletesAt p room s₁) :
    CompletesAt p room s := by
  obtain ⟨w, hw, hready⟩ := begins_iff_passes.mp ((peek_eq_iff hs).mp ⟨hpeek, hs₁⟩)
  refine hw.completes (h hready hw.source_eq) fun text htext => ?_
  rw [hw.options_eq] at htext
  exact hblanks w htext

/-- A value that has been built is a text of the grammar, and the reader is behind it. -/
theorem completesAt_of_value {p q : Bool → Nat → Bytes → Prop} {limit steps depth : Nat} {v : Value}
    (hq : ∀ {allow room text more}, ValueText allow room text → p allow room more →
      q allow room (text ++ more))
    (hv : Build.value tokens limit steps kind depth s = some (v, s₁)) (hs₁ : s₁.failed = false)
    (hs : s.failed = false) (hready : Ready kind s) (hle : depth ≤ limit)
    (h : s₁.state.source = s.state.source → CompletesAt p (limit - depth) s₁) :
    CompletesAt q (limit - depth) s := by
  obtain ⟨d, hands, hd⟩ := (Build.hands_of_answer steps).1 hv hs₁ hle
  obtain ⟨node, hnode, -, rfl⟩ := stands_of_hands hands hs hready
  have hfront := hnode.passes
  refine hfront.completes (h hfront.source_eq) fun text htext => ?_
  rw [hfront.options_eq] at htext
  exact hq (.of_node ⟨node, rfl, hnode.within, by omega⟩) htext

end

/-! ### One step of the builder -/

/-- What is left is completed to a value where a run that builds one finds the end too early. -/
def ValueCompletes (limit steps : Nat) : Prop :=
  ∀ {kind depth s v s'}, Build.value tokens limit steps kind depth s = some (v, s') →
    s.failed = false → Ready kind s → depth ≤ limit → Unfinished s.state.source s' →
    CompletesAt NodeText (limit - depth) s

/-- The same of an item and those behind it. -/
def ItemsComplete (limit steps : Nat) : Prop :=
  ∀ {depth done kind s v s'},
    Build.items tokens limit steps depth done (some kind) s = some (v, s') →
    s.failed = false → Ready kind s → depth ≤ limit → Unfinished s.state.source s' →
    CompletesAt ItemText (limit - depth) s

/-- The same of a member whose key has been read and those behind it. -/
def MembersComplete (limit steps : Nat) : Prop :=
  ∀ {depth done token s v s'},
    Build.members tokens limit steps depth done (some token) s = some (v, s') →
    s.failed = false → depth ≤ limit → Unfinished s.state.source s' →
    CompletesAt MemberText (limit - depth) s

/-- The run ends with what an operation has found. -/
theorem completes_of_cutShort {α : Type} {p : Bytes → Prop}
    {op : Session Reader → α × Session Reader} {a : α} (hop : op s = (a, s'))
    (hcut : EndsEarly (op s).2 → CutShort p s (op s).2) (h : EndsEarly s') :
    Completes p (rest s) := by
  rw [hop] at hcut
  exact (hcut h).completes

/-- Within the limit there is room for an array or object, and in it for one level less. -/
theorem exists_room {limit depth : Nat} (h : ¬ limit < depth + 1) :
    ∃ room, limit - depth = room + 1 ∧ limit - (depth + 1) = room ∧ depth + 1 ≤ limit :=
  ⟨limit - (depth + 1), by omega⟩

section

variable {steps depth : Nat} {v : Value}

/-- An array is completed by what completes its items. -/
theorem completes_array (ih : ItemsComplete limit steps)
    (h : Build.value tokens limit (steps + 1) .array depth s = some (v, s'))
    (hs : s.failed = false) (hend : Unfinished s.state.source s') :
    CompletesAt NodeText (limit - depth) s := by
  rw [Build.value] at h
  split at h
  · cases h
    exact absurd hend.early (not_endsEarly_failAt hs ErrorCode.noConfusion)
  next hlimit =>
  obtain ⟨room, hroom, hinner, hle⟩ := exists_room hlimit
  rw [hroom]
  rcases hopen : tokens.openArray s with ⟨next, s₁⟩
  rw [hopen] at h
  rcases Build.ends_or_goes_on h with rfl | ⟨hf, h⟩
  · exact completes_of_cutShort hopen (cutShort_openArray hs) hend.early
  cases next with
  | none =>
      obtain rfl := Build.ends_of_items_none h
      exact absurd hend.early (not_endsEarly hf)
  | some kind =>
      exact completesAt_of_openArray hs hopen hf fun hready hsource =>
        hinner ▸ ih h hf hready hle (hsource ▸ hend)

theorem completes_object (ih : MembersComplete limit steps)
    (h : Build.value tokens limit (steps + 1) .object depth s = some (v, s'))
    (hs : s.failed = false) (hend : Unfinished s.state.source s') :
    CompletesAt NodeText (limit - depth) s := by
  rw [Build.value] at h
  split at h
  · cases h
    exact absurd hend.early (not_endsEarly_failAt hs ErrorCode.noConfusion)
  next hlimit =>
  obtain ⟨room, hroom, hinner, hle⟩ := exists_room hlimit
  rw [hroom]
  rcases hopen : tokens.openObject s with ⟨next, s₁⟩
  rw [hopen] at h
  rcases Build.ends_or_goes_on h with rfl | ⟨hf, h⟩
  · exact completes_of_cutShort hopen (cutShort_openObject hs) hend.early
  cases next with
  | none =>
      obtain rfl := Build.ends_of_members_none h
      exact absurd hend.early (not_endsEarly hf)
  | some token =>
      exact completesAt_of_openObject hs hopen hf fun hsource =>
        hinner ▸ ih h hf hle (hsource ▸ hend)

/-- What is cut short is an item, or what stands behind it. -/
theorem completes_items (ihValue : ValueCompletes limit steps) (ih : ItemsComplete limit steps) :
    ItemsComplete limit (steps + 1) := by
  intro depth done kind s v s' h hs hready hle hend
  rw [Build.items] at h
  rcases hv : Build.value tokens limit steps kind depth s with _ | ⟨w, s₁⟩
  · rw [hv] at h
    cases h
  rw [hv] at h
  rcases Build.ends_or_goes_on h with rfl | ⟨hf, h⟩
  · -- the item itself is left unfinished
    exact (ihValue hv hs hready hle hend).followed [closeBracket] fun text htext =>
      ⟨text, _, rfl, .of_node htext, .close .none⟩
  refine completesAt_of_value (fun htext hmore => ⟨_, _, rfl, htext, hmore⟩) hv hf hs hready hle
    fun hsource => ?_
  rw [← hsource] at hend
  rcases hnext : tokens.nextItem s₁ with ⟨next, s₂⟩
  rw [hnext] at h
  rcases Build.ends_or_goes_on h with rfl | ⟨hf', h⟩
  · exact completes_of_cutShort hnext (cutShort_nextItem hf) hend.early
  cases next with
  | none =>
      obtain rfl := Build.ends_of_items_none h
      exact absurd hend.early (not_endsEarly hf')
  | some kind =>
      exact completesAt_of_nextItem hf hnext hf' fun hready' hsource' =>
        ih h hf' hready' hle (hsource' ▸ hend)

theorem completes_members (ihValue : ValueCompletes limit steps)
    (ih : MembersComplete limit steps) : MembersComplete limit (steps + 1) := by
  intro depth done token s v s' h hs hle hend
  rw [Build.members] at h
  rcases hpeek : tokens.peek s with ⟨kind, s₁⟩
  rw [hpeek] at h
  rcases Build.ends_or_goes_on h with rfl | ⟨hf, h⟩
  · -- the value is missing
    have hvalue : CompletesAt ValueText (limit - depth) s :=
      completes_of_cutShort hpeek (cutShort_peek hs) hend.early
    exact hvalue.followed [closeBrace] fun text htext => ⟨text, _, rfl, htext, .close .none⟩
  refine completesAt_of_peek (fun w h => h.blanks w) hs hpeek hf fun hready hsource => ?_
  rw [← hsource] at hend
  rcases hv : Build.value tokens limit steps kind depth s₁ with _ | ⟨w, s₂⟩
  · rw [hv] at h
    cases h
  rw [hv] at h
  rcases Build.ends_or_goes_on h with rfl | ⟨hf', h⟩
  · exact (ihValue hv hf hready hle hend).followed [closeBrace] fun text htext =>
      ⟨text, _, rfl, .of_node htext, .close .none⟩
  refine completesAt_of_value (fun htext hmore => ⟨_, _, rfl, htext, hmore⟩) hv hf' hf hready hle
    fun hsource' => ?_
  rw [← hsource'] at hend
  rcases hnext : tokens.nextKey s₂ with ⟨next, s₃⟩
  rw [hnext] at h
  rcases Build.ends_or_goes_on h with rfl | ⟨hf'', h⟩
  · exact completes_of_cutShort hnext (cutShort_nextKey hf') hend.early
  cases next with
  | none =>
      obtain rfl := Build.ends_of_members_none h
      exact absurd hend.early (not_endsEarly hf'')
  | some token =>
      exact completesAt_of_nextKey hf' hnext hf'' fun hsource'' =>
        ih h hf'' hle (hsource'' ▸ hend)

end

/-- **What is left can be completed** where a run of the builder finds the end too early. -/
theorem completes_of_answer (limit steps : Nat) :
    ValueCompletes limit steps ∧ ItemsComplete limit steps ∧ MembersComplete limit steps := by
  -- on the steps allowed; a run that spends them all answers nothing
  induction steps with
  | zero => exact ⟨(fun h => nomatch h), (fun h => nomatch h), (fun h => nomatch h)⟩
  | succ steps ih =>
      obtain ⟨ihValue, ihItems, ihMembers⟩ := ih
      refine ⟨?_, completes_items ihValue ihItems, completes_members ihValue ihMembers⟩
      intro kind depth s v s' h hs hready hle hend
      by_cases ha : kind = .array
      · subst ha
        exact completes_array ihItems h hs hend
      by_cases ho : kind = .object
      · subst ho
        exact completes_object ihMembers h hs hend
      · rw [Build.value_scalar ha ho] at h
        have heq := congrArg Prod.snd (Option.some.inj h)
        exact completes_scalar hs hready (heq ▸ hend)

/-! ### Misspelt words -/

/-- A misspelt word is told where it begins. -/
theorem misspelt_of_readWord {word : Bytes} (hs : s.failed = false)
    (h : AtMisspelt s.state.source (readWord word s)) : Misspelt (rest s) := by
  rw [readWord] at h
  split at h
  · exact ((atMisspelt_failAt_iff hs).mp h).2
  split at h
  · exact absurd h.endsEarly (not_endsEarly hs)
  · exact absurd h.endsEarly (not_endsEarly_failAt hs ErrorCode.noConfusion)

/-- A misspelt word is none, whatever follows it. -/
theorem not_isPrefix_of_misspelt {word bs : Bytes} (hmem : word ∈ plainWords)
    (hhead : bs.head? = word.head?) (h : Misspelt bs) (tail : Bytes) : ¬ word <+: bs ++ tail := by
  obtain ⟨word', hmem', hhead', hlength, hno⟩ := h
  obtain rfl := eq_of_head? word hmem word' hmem' (hhead.symm.trans hhead')
  intro hword
  exact hno (List.prefix_of_prefix_length_le (List.prefix_append _ _) hword hlength.le)

/-- The readers are in step, the first one over the document, or both have recorded an error. -/
def InStepOrFailed (document : Slice) (s t : Session Reader) : Prop :=
  InStep s t ∧ s.state.source = document ∨ s.failed = true ∧ t.failed = true

/-- The reader is undecided, but not at a misspelt word of the document. -/
structure UndecidedSpelt (document : Slice) (s : Session Reader) : Prop where
  undecided : Undecided s
  spelt : ¬ AtMisspelt document s
  source : s.failed = false → s.state.source = document

section

open Build (KeepsUp SameKind SameItem SameKey)

variable {t : Session Reader} {document : Slice}

theorem InStepOrFailed.failed_eq (h : InStepOrFailed document s t) : s.failed = t.failed := by
  rcases h with ⟨h, -⟩ | ⟨hf, hf'⟩
  · exact h.failed_eq
  · exact hf.trans hf'.symm

/-- Readers that have not failed are in step. -/
theorem InStepOrFailed.inStep (h : InStepOrFailed document s t) (hs : s.failed = false) :
    InStep s t ∧ s.state.source = document :=
  h.resolve_right fun hf => absurd hf.1 (ne_true_of_eq_false hs)

/-- Over a longer document a misspelt word is none either. -/
theorem failed_readWord {word : Bytes} (h : InStep s t) (hs : s.failed = false)
    (hmem : word ∈ plainWords) (hhead : (rest s).head? = word.head?)
    (hmisspelt : AtMisspelt s.state.source (readWord word s)) :
    (readWord word t).failed = true := by
  by_contra hf
  rw [Bool.not_eq_true] at hf
  have hpos : ∀ word ∈ plainWords, 0 < word.length := by decide
  obtain ⟨back, hr, -⟩ :=
    (readWord_eq_iff (h.failed_eq.symm.trans hs) (hpos word hmem)).mp ⟨rfl, hf⟩
  obtain ⟨tail, htail⟩ := h.rest_eq
  refine not_isPrefix_of_misspelt hmem hhead (misspelt_of_readWord hs hmisspelt) tail ?_
  rw [← htail, hr]
  exact List.prefix_append _ _

/-- What keeps the readers in step until the first one is undecided also does so until it is
undecided at something else than a misspelt word. -/
theorem keepsUp_spelt {α : Type} {agree : α → α → Session Reader → Prop} {x y : α × Session Reader}
    (h : KeepsUp InStep Undecided agree x y) (hsource : x.2.state.source = document)
    (hspelt : EndsEarly x.2 → ¬ AtMisspelt document x.2) :
    KeepsUp (InStepOrFailed document) (UndecidedSpelt document) agree x y := by
  rcases h with ⟨hf, hundecided⟩ | ⟨hstep, hagree⟩
  · exact .inl ⟨hf, hundecided, fun hm => hspelt hm.endsEarly hm, fun _ => hsource⟩
  · exact .inr ⟨.inl ⟨hstep, hsource⟩, hagree⟩

theorem inStepOrFailed_scalar (h : InStep s t) (hs : s.failed = false) {kind : Kind}
    (hready : Ready kind s) :
    InStepOrFailed s.state.source (Build.scalar tokens kind s).2 (Build.scalar tokens kind t).2 ∨
      UndecidedSpelt s.state.source (Build.scalar tokens kind s).2 := by
  have hsource : (Build.scalar tokens kind s).2.failed = false →
      (Build.scalar tokens kind s).2.state.source = s.state.source := by
    intro hf
    obtain ⟨node, hnode, -, -⟩ := stands_of_hands (Build.hands_of_scalar rfl hf) hs hready
    exact hnode.passes.source_eq
  rcases inStep_or_undecided_scalar h hs kind hready with hstep | hundecided
  · left
    cases hf : (Build.scalar tokens kind s).2.failed with
    | true => exact .inr ⟨hf, hstep.failed_eq.symm.trans hf⟩
    | false => exact .inl ⟨hstep, hsource hf⟩
  by_cases hm : AtMisspelt s.state.source (Build.scalar tokens kind s).2
  · -- only a word is misspelt, and the longer document has none there either
    left
    rcases scalar_of_endsEarly hs hready hm.endsEarly with ⟨word, hmem, hhead, heq⟩ | heq
    · rw [heq] at hm ⊢
      rw [heq]
      exact .inr ⟨hm.endsEarly.failed, failed_readWord h hs hmem hhead hm⟩
    · rw [heq] at hm
      exact absurd hm (cutShort_readString hs hm.endsEarly).spelt
  · exact .inr ⟨hundecided, hm, hsource⟩

/-- **The readers stay in step, or both record an error**, until the first one is undecided at
something else than a misspelt word. -/
theorem lockstep_misspelt (document : Slice) :
    Build.Lockstep tokens (InStepOrFailed document) Ready (UndecidedSpelt document) where
  failed h := h.failed_eq
  tooDeep _ h hs _ := by
    obtain ⟨hstep, hsource⟩ := h.inStep hs
    exact .inl ⟨hstep.failHere _, hsource⟩
  scalar kind _ _ h hs hready := by
    obtain ⟨hstep, rfl⟩ := h.inStep hs
    exact inStepOrFailed_scalar hstep hs hready
  -- what an end too early is completed to does not matter here, only that no word is misspelt
  peek h hs := by
    obtain ⟨hstep, rfl⟩ := h.inStep hs
    exact keepsUp_spelt (keepsUp_peek hstep hs) (reaches_peek _).source
      fun he => (@cutShort_peek _ true 0 hs he).spelt
  openArray h hs hready := by
    obtain ⟨hstep, rfl⟩ := h.inStep hs
    exact keepsUp_spelt (keepsUp_openArray hstep hs hready) (reaches_openArray _).source
      fun he => (@cutShort_openArray _ true 0 hs he).spelt
  nextItem h hs := by
    obtain ⟨hstep, rfl⟩ := h.inStep hs
    exact keepsUp_spelt (keepsUp_nextItem hstep hs) (reaches_nextItem _).source
      fun he => (@cutShort_nextItem _ true 0 hs he).spelt
  openObject h hs hready := by
    obtain ⟨hstep, rfl⟩ := h.inStep hs
    exact keepsUp_spelt (keepsUp_openObject hstep hs hready) (reaches_openObject _).source
      fun he => (@cutShort_openObject _ true 0 hs he).spelt
  nextKey h hs := by
    obtain ⟨hstep, rfl⟩ := h.inStep hs
    exact keepsUp_spelt (keepsUp_nextKey hstep hs) (reaches_nextKey _).source
      fun he => (@cutShort_nextKey _ true 0 hs he).spelt
  lost_nextItem h hs := by
    obtain rfl := h.source hs
    obtain ⟨hf, hundecided⟩ := undecided_nextPart h.undecided hs closeBracket none announce
    exact ⟨hf, hundecided, fun hm => (@cutShort_nextItem _ true 0 hs hm.endsEarly).spelt hm,
      fun _ => (reaches_nextItem _).source⟩
  lost_nextKey h hs := by
    obtain rfl := h.source hs
    obtain ⟨hf, hundecided⟩ := undecided_nextPart h.undecided hs closeBrace none readKey
    exact ⟨hf, hundecided, fun hm => (@cutShort_nextKey _ true 0 hs hm.endsEarly).spelt hm,
      fun _ => (reaches_nextKey _).source⟩

end

/-! ### Whole documents -/

/-- The end of the document is not too early for what must not end there. -/
theorem not_endsEarly_finish (hs : s.failed = false) : ¬ EndsEarly (finish s).2 := by
  have hs₁ : (skipBlank s).failed = false := hs
  rw [finish]
  split
  · exact not_endsEarly_failAt hs₁ ErrorCode.noConfusion
  · exact not_endsEarly hs₁

end Reader

open Reader

variable {document longer : Slice} {options : ReadOptions} {e : Error}

/-- That the end is too early is found where the value is built. -/
theorem build_fault_of_unexpectedEnd (h : (parse document options).fault = some e)
    (hcode : e.code = .unexpectedEnd) :
    (build options.maxDepth (start document options)).2.fault = some e := by
  rw [parse] at h
  generalize build options.maxDepth (start document options) = x at h ⊢
  obtain ⟨v, s⟩ := x
  dsimp only at h ⊢
  cases hs : s.failed with
  | true =>
      rw [if_pos hs] at h
      exact h
  | false =>
      rw [if_neg (by simp [hs])] at h
      refine absurd ⟨e, ?_, hcode⟩ (not_endsEarly_finish hs)
      rcases hfinish : finish s with ⟨ended, s'⟩
      rw [hfinish] at h
      cases ended <;> exact h

/-- A document that begins with one that ends in a misspelt word is not accepted. -/
theorem fault_of_misspelt {tail : Bytes} (h : (parse document options).fault = some e)
    (hcode : e.code = .unexpectedEnd) (hmisspelt : Misspelt (document.rest e.offset))
    (hlonger : longer.bytes = document.bytes ++ tail) : (parse longer options).fault ≠ none := by
  have hm : AtMisspelt document (build options.maxDepth (start document options)).2 :=
    ⟨e, build_fault_of_unexpectedEnd h hcode, hcode, hmisspelt⟩
  have hstart : InStepOrFailed document (start document options) (start longer options) :=
    .inl ⟨⟨⟨tail, hlonger⟩, rfl, rfl, Nat.zero_le _, rfl⟩, rfl⟩
  have hbuild : InStepOrFailed document (build options.maxDepth (start document options)).2
      (build options.maxDepth (start longer options)).2 ∨
        UndecidedSpelt document (build options.maxDepth (start document options)).2 :=
    (lockstep_misspelt document).build bounded options.maxDepth hstart rfl
  rcases hbuild with hstep | hundecided
  · have hf := hstep.failed_eq.symm.trans hm.endsEarly.failed
    rw [parse]
    dsimp only
    rw [if_pos hf]
    intro hnone
    replace hnone : (build options.maxDepth (start longer options)).2.fault = none := hnone
    rw [Session.failed, hnone] at hf
    cases hf
  · exact absurd hm hundecided.spelt

/-- What is left of a document that is unfinished is completed to a value. -/
theorem completes_of_unfinished
    (h : Unfinished document (build options.maxDepth (start document options)).2) :
    Completes (ValueText options.allowNonFinite options.maxDepth) document.bytes := by
  have hs : (start document options).failed = false := rfl
  obtain ⟨steps, hnext⟩ : ∃ steps, Build.next? tokens options.maxDepth steps
      (start document options) = some (build options.maxDepth (start document options)) :=
    ⟨_, (Option.some_get _).symm⟩
  generalize build options.maxDepth (start document options) = x at h hnext
  obtain ⟨v, s'⟩ := x
  have hrest := rest_start document options
  rw [Build.next?] at hnext
  rw [← hrest]
  rcases hpeek : tokens.peek (start document options) with ⟨kind, s⟩
  rw [hpeek] at hnext
  rcases Build.ends_or_goes_on hnext with rfl | ⟨hf, hnext⟩
  · exact completes_of_cutShort hpeek (cutShort_peek hs) h.early
  obtain ⟨⟨w, s₁⟩, hv, heq⟩ := Option.map_eq_some_iff.mp hnext
  obtain rfl : s₁ = s' := congrArg Prod.snd heq
  have hcompletes : CompletesAt ValueText options.maxDepth (start document options) := by
    refine completesAt_of_peek (fun w h => h.blanks w) hs hpeek hf fun hready hsource => ?_
    have hvalue := (completes_of_answer options.maxDepth steps).1 hv hf hready (Nat.zero_le _)
      (hsource ▸ h)
    refine hvalue.followed [] fun text htext => ?_
    rw [List.append_nil]
    exact .of_node htext
  exact hcompletes

/-- A value with blanks before it is a document that is accepted. -/
theorem parse_of_valueText
    (h : ValueText options.allowNonFinite options.maxDepth longer.bytes) :
    ∃ v, parse longer options = ⟨v, none⟩ := by
  obtain ⟨w, _, hbytes, node, rfl, hwithin, hdepth⟩ := h
  refine ⟨node.value, parse_eq_ok_iff.mpr ⟨⟨w, node, .none⟩, [], ?_, ?_, stops_nil _,
    fun _ => rfl, ⟨hwithin, hdepth⟩, rfl⟩⟩
  · rw [hbytes, Derivation.text]
    simp [Blanks.none]
  · exact endsBefore_of_stops node (stops_nil _)

/-- **A document that ends too early can be completed unless it ends in a misspelt word.**  If a
document is rejected because it ends too early, some more bytes make it a document that is accepted
under the same options; the exception are a few last bytes that begin with the letter of a word, and
are fewer than its letters, but are no beginning of the word.  Whatever follows those, the document
is rejected. -/
theorem can_be_completed_iff (h : (parse document options).fault = some e)
    (hcode : e.code = .unexpectedEnd) :
    (∃ tail, tail ≠ [] ∧ ∀ longer : Slice, longer.bytes = document.bytes ++ tail →
      ∃ v, parse longer options = ⟨v, none⟩) ↔ ¬ Misspelt (document.rest e.offset) := by
  constructor
  · rintro ⟨tail, -, haccepted⟩ hmisspelt
    obtain ⟨v, hparse⟩ := haccepted (.ofBytes 0 (document.bytes ++ tail)) (Slice.bytes_ofBytes _ _)
    exact fault_of_misspelt h hcode hmisspelt (Slice.bytes_ofBytes _ _)
      (congrArg Parsed.fault hparse)
  · intro hspelt
    have hfault := build_fault_of_unexpectedEnd h hcode
    have hend : Unfinished document (build options.maxDepth (start document options)).2 := by
      refine ⟨⟨e, hfault, hcode⟩, ?_⟩
      rintro ⟨e', he', -, hmisspelt⟩
      obtain rfl := Option.some.inj (he'.symm.trans hfault)
      exact hspelt hmisspelt
    obtain ⟨tail, hne, htext⟩ := completes_of_unfinished hend
    exact ⟨tail, hne, fun longer hlonger => parse_of_valueText (hlonger ▸ htext)⟩

/-- A key that is left open, in an object in an array. -/
theorem can_be_completed_iff_openKey :
    (parse (.ofBytes 0 (Bytes.ofString "[1,\x7b\"a")) {}).fault = some ⟨.unexpectedEnd, 4, 1, 5⟩ ∧
      ∃ tail, tail ≠ [] ∧ ∀ longer : Slice,
        longer.bytes = (Slice.ofBytes 0 (Bytes.ofString "[1,\x7b\"a")).bytes ++ tail →
          ∃ v, parse longer {} = ⟨v, none⟩ := by
  have h : (parse (.ofBytes 0 (Bytes.ofString "[1,\x7b\"a")) {}).fault =
      some ⟨.unexpectedEnd, 4, 1, 5⟩ := rfl
  exact ⟨h, (can_be_completed_iff h rfl).mpr (by decide)⟩

/-- A misspelt word is told as an end that came too early, and nothing completes it. -/
theorem misspelt_end_is_final :
    (parse (.ofBytes 0 (Bytes.ofString "nx")) {}).fault = some ⟨.unexpectedEnd, 0, 1, 1⟩ ∧
      ¬ ∃ tail, tail ≠ [] ∧
        (parse (.ofBytes 0 (Bytes.ofString "nx" ++ tail)) {}).fault = none := by
  have h : (parse (.ofBytes 0 (Bytes.ofString "nx")) {}).fault =
      some ⟨.unexpectedEnd, 0, 1, 1⟩ := rfl
  refine ⟨h, ?_⟩
  rintro ⟨tail, -, hnone⟩
  have hlonger : (Slice.ofBytes 0 (Bytes.ofString "nx" ++ tail)).bytes =
      (Slice.ofBytes 0 (Bytes.ofString "nx")).bytes ++ tail := by
    rw [Slice.bytes_ofBytes, Slice.bytes_ofBytes]
  exact fault_of_misspelt h rfl (by decide) hlonger hnone

end JsonTree
