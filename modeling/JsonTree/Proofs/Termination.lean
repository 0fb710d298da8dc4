import JsonTree.Proofs.Consumption
import JsonTree.Proofs.Builder

/-!
# Termination — building goes forward

Building a value comes to an end from any cursor and for any announcement, a wrong one too, and not
by the limit, which may be out of reach: every value that is built without an error, and every pass
over an item or a member, has gone over some bytes of the document.

* `passes_of_hands`: what is handed out without an error are bytes that the cursor has gone over.
* `consumes_value`, `consumes_itemPass`, `consumes_memberPass`: nested builds, and the two loops.
* `building_goes_forward`: all of it, with the passes over a string and the nesting of builds.
-/

namespace JsonTree

namespace Reader

open Build

theorem Advances.of_eq {α : Type} {s s' : Session Reader} {x : α × Session Reader} {a : α}
    (h : Advances s x.2) (hx : x = (a, s')) : Advances s s' := by
  rw [hx] at h
  exact h

/-- What ends without an error has begun without one. -/
theorem Advances.not_failed {s s' : Session Reader} (h : Advances s s') (hs' : s'.failed = false) :
    s.failed = false := by
  cases he : s.fault with
  | none => rw [Session.failed, he]; rfl
  | some e =>
      rw [Session.failed, h.keeps e he] at hs'
      cases hs'

theorem advances_of_hands {part : Part} {d : Nat} {s s' : Session Reader}
    (h : Hands tokens part d s s') : Advances s s' := by
  induction h with
  | null hr _ => exact hr ▸ advances_readWord _ _
  | boolean _ hr _ => exact (advances_readBool _ _).of_eq hr
  | string hr _ => exact (advances_readString _).of_eq hr
  | integer hr _ => exact (advances_readInteger _).of_eq hr
  | floating hi _ hr _ =>
      exact ((advances_readInteger _).of_eq hi).trans ((advances_readFloat _).of_eq hr)
  | nonFinite _ hr _ => exact (advances_readFloat _).of_eq hr
  | array hopen _ _ ih => exact ((advances_openArray _).of_eq hopen).trans ih
  | object hopen _ _ ih => exact ((advances_openObject _).of_eq hopen).trans ih
  | itemsEnd s | membersEnd s => exact .refl s
  | item _ hnext _ _ ih ih' => exact (ih.trans ((advances_nextItem _).of_eq hnext)).trans ih'
  | member hpeek _ _ hnext _ _ ih ih' =>
      exact ((((advances_peek _).of_eq hpeek).trans ih).trans
        ((advances_nextKey _).of_eq hnext)).trans ih'

/-- What is gone over for a part: some bytes for a value, and perhaps none for what is left of an
array or object. -/
def GoneOver (part : Part) (s s' : Session Reader) : Prop :=
  match part with
  | .value _ _ => Consumes s s'
  | .items _ _ | .members _ _ => ∃ front, Passes front s s'

theorem passes_peek {s s' : Session Reader} {kind : Kind} (hs : s.failed = false)
    (h : peek s = (kind, s')) (hs' : s'.failed = false) : ∃ front, Passes front s s' := by
  obtain ⟨w, back, hr, -, rfl⟩ := (peek_eq_iff hs).mp ⟨h, hs'⟩
  exact ⟨_, .of_rest hr⟩

/-- **What is handed out without an error are bytes that the cursor has gone over.** -/
theorem passes_of_hands {part : Part} {d : Nat} {s s' : Session Reader}
    (h : Hands tokens part d s s') : s.failed = false → GoneOver part s s' := by
  -- on what is handed out; each rule goes over its own token and over what comes behind it
  induction h with
  | null hr hs' => exact fun hs => consumes_readNull hs hr hs'
  | boolean _ hr hs' => exact fun hs => consumes_readBool hs hr hs'
  | string hr hs' => exact fun hs => consumes_readString hs hr hs'
  | integer hr hs' => exact fun hs => consumes_readInteger hs hr hs'
  | floating hi hs₁ hr hs' =>
      intro hs
      obtain ⟨w, hw⟩ := passes_readInteger hs hi hs₁
      exact .behind hw (consumes_readFloat hs₁ hr hs')
  | nonFinite _ hr hs' => exact fun hs => consumes_readFloat hs hr hs'
  | array hopen hs₁ _ ih =>
      intro hs
      obtain ⟨front, hfront⟩ := ih hs₁
      exact (consumes_openArray hs hopen hs₁).before hfront
  | object hopen hs₁ _ ih =>
      intro hs
      obtain ⟨front, hfront⟩ := ih hs₁
      exact (consumes_openObject hs hopen hs₁).before hfront
  | itemsEnd s | membersEnd s => exact fun _ => ⟨[], ⟨rest s, rfl⟩, rfl⟩
  | item hvalue hnext hs₂ _ ih ih' =>
      intro hs
      obtain ⟨front, hfront⟩ := ih' hs₂
      have hbehind := (consumes_nextItem hvalue.value_ends hnext hs₂).before hfront
      obtain ⟨_, hpasses⟩ := (ih hs).passes
      exact (Consumes.behind hpasses hbehind).passes
  | member hpeek hs₁ hvalue hnext hs₃ _ ih ih' =>
      intro hs
      obtain ⟨front, hfront⟩ := ih' hs₃
      have hbehind := (consumes_nextKey hvalue.value_ends hnext hs₃).before hfront
      obtain ⟨_, hpeeked⟩ := passes_peek hs hpeek hs₁
      obtain ⟨_, hpasses⟩ := (ih hs₁).passes
      exact (Consumes.behind (hpeeked.append hpasses) hbehind).passes

/-- **A value that is built without an error has gone over some bytes.** -/
theorem consumes_value {limit steps depth : Nat} {kind : Kind} {v : Value}
    {s s' : Session Reader} (h : value tokens limit steps kind depth s = some (v, s'))
    (hs' : s'.failed = false) : Consumes s s' := by
  obtain ⟨d, hands⟩ := hands_of_value h hs'
  exact passes_of_hands hands ((advances_of_hands hands).not_failed hs')

/-- **So has a pass over an item.** -/
theorem consumes_itemPass {limit steps depth : Nat} {kind : Kind} {a : Value × Option Kind}
    {s s' : Session Reader} (h : itemPass tokens limit steps kind depth s = some (a, s'))
    (hs' : s'.failed = false) : Consumes s s' := by
  obtain ⟨⟨v, s₁⟩, hv, hnext⟩ := Option.map_eq_some_iff.mp h
  dsimp only at hnext
  split at hnext
  · next hf => exact absurd hnext (Session.ne_of_failed hf hs')
  next hf =>
    rw [Bool.not_eq_true] at hf
    obtain ⟨-, rfl⟩ := Prod.mk.inj hnext
    obtain ⟨front, hpasses⟩ := (consumes_nextItem hf rfl hs').passes
    exact (consumes_value hv hf).before hpasses

/-- **So has a pass over a member.** -/
theorem consumes_memberPass {limit steps depth : Nat} {a : Value × Option StringToken}
    {s s' : Session Reader} (h : memberPass tokens limit steps depth s = some (a, s'))
    (hs' : s'.failed = false) : Consumes s s' := by
  rw [memberPass] at h
  rcases hpeek : peek s with ⟨kind, s₁⟩
  rw [show tokens.peek s = (kind, s₁) from hpeek] at h
  dsimp only at h
  split at h
  · next hf => exact absurd (Option.some.inj h) (Session.ne_of_failed hf hs')
  next hf =>
    rw [Bool.not_eq_true] at hf
    obtain ⟨⟨v, s₂⟩, hv, hnext⟩ := Option.map_eq_some_iff.mp h
    dsimp only at hnext
    split at hnext
    · next hf' => exact absurd hnext (Session.ne_of_failed hf' hs')
    next hf' =>
      rw [Bool.not_eq_true] at hf'
      obtain ⟨-, rfl⟩ := Prod.mk.inj hnext
      have hs := ((advances_peek s).of_eq hpeek).not_failed hf
      obtain ⟨_, hpeeked⟩ := passes_peek hs hpeek hf
      obtain ⟨_, hpasses⟩ := (consumes_nextKey hf' rfl hs').passes
      exact .behind hpeeked ((consumes_value hv hf').before hpasses)

/-- With steps enough for the bytes left there is one answer, counted or not, however many steps are
allowed beyond that. -/
theorem exists_answer (limit : Nat) (kind : Kind) (depth : Nat) (s : Session Reader) :
    ∃ n v s', ∀ steps, 2 * s.state.remaining + 2 ≤ steps →
      nestedValue tokens limit steps kind depth s = some (n, v, s') ∧
      value tokens limit steps kind depth s = some (v, s') := by
  have hsome := value_isSome bounded limit kind depth s (Nat.le_refl _)
  rw [← (nested_eq _).1, Option.isSome_map] at hsome
  obtain ⟨⟨n, v, s'⟩, hr⟩ := Option.isSome_iff_exists.mp hsome
  refine ⟨n, v, s', fun steps hle => ?_⟩
  have hr' := (nested_extends _).1 steps kind depth s hle _ hr
  refine ⟨hr', ?_⟩
  rw [← (nested_eq _).1, hr']
  rfl

open Literal in
/-- **Building goes forward, and so comes to an end.**  From any session, for any announcement and
under any limit, there is one answer, however many steps are allowed beyond twice the bytes left.
No more builds of values are under way at one time than the limit says, or than bytes are left, and
one.  If there is no error, fewer bytes are left.

A nested build that ends without an error has moved the cursor forward inside the document.  So has
a pass over an item or a member, and the loops over them go from one pass to the next; and so has a
pass over a string; pass by pass the whole of it is read, up to behind its closing quote or to what
is wrong with it. -/
theorem building_goes_forward :
    (∀ (limit : Nat) (kind : Kind) (s : Session Reader), ∃ n v s',
      (∀ steps, 2 * s.state.remaining + 2 ≤ steps →
        nestedValue tokens limit steps kind 0 s = some (n, v, s') ∧
        value tokens limit steps kind 0 s = some (v, s')) ∧
      buildAnnounced limit kind s = settle v s' ∧
      n ≤ min limit s.state.remaining + 1 ∧
      (s'.failed = false → s'.state.remaining < s.state.remaining)) ∧
    (∀ limit steps kind depth v (s s' : Session Reader),
      value tokens limit steps kind depth s = some (v, s') → s'.failed = false →
      s.state.position < s'.state.position ∧ s'.state.position ≤ s.state.source.size) ∧
    (∀ limit steps kind depth a (s s' : Session Reader),
      itemPass tokens limit steps kind depth s = some (a, s') → s'.failed = false →
      s.state.position < s'.state.position ∧ s'.state.position ≤ s.state.source.size) ∧
    (∀ limit steps depth a (s s' : Session Reader),
      memberPass tokens limit steps depth s = some (a, s') → s'.failed = false →
      s.state.position < s'.state.position ∧ s'.state.position ≤ s.state.source.size) ∧
    (∀ limit steps depth done kind (s : Session Reader),
      items tokens limit (steps + 1) depth done (some kind) s =
        (itemPass tokens limit steps kind depth s).bind fun ((v, next), s') =>
          if s'.failed then some (.null, s')
          else items tokens limit steps depth (v :: done) next s') ∧
    (∀ limit steps depth (done : KeyTable) token (s : Session Reader),
      members tokens limit (steps + 1) depth done (some token) s =
        (memberPass tokens limit steps depth s).bind fun ((v, next), s') =>
          if s'.failed then some (.null, s')
          else members tokens limit steps depth (done.insert (token.text s.state.source) v)
            next s') ∧
    ∀ (source : Slice) (opened : Nat),
      (∀ i j closed, pass source opened i = .ok (j, closed) → i < j ∧ j ≤ source.size) ∧
      Scans source opened (opened + 1) ((read source opened).map (·.2)) ∧
      ∀ characters stop, read source opened = .ok (characters, stop) → opened < stop := by
  refine ⟨fun limit kind s => ?_, fun _ _ _ _ _ _ _ h hs' => (consumes_value h hs').forward,
    fun _ _ _ _ _ _ _ h hs' => (consumes_itemPass h hs').forward,
    fun _ _ _ _ _ _ h hs' => (consumes_memberPass h hs').forward,
    fun _ _ _ _ _ _ => items_succ_eq _ _ _ _ _, fun _ _ _ _ _ _ => members_succ_eq _ _ _ _ _,
    fun source opened => ⟨fun i j closed h => lt_of_pass h, scans_read source opened,
      fun characters stop h => ?_⟩⟩
  · obtain ⟨n, v, s', hanswer⟩ := exists_answer limit kind 0 s
    obtain ⟨hnested, hvalue⟩ := hanswer _ (Nat.le_refl _)
    refine ⟨n, v, s', hanswer, ?_, ?_, fun hs' => (consumes_value hvalue hs').remaining_lt⟩
    · have hbuilt : announced? tokens limit (bounded.steps s) kind s = some (settle v s') := by
        rw [announced?, TokenSource.Bounded.steps, hvalue]
        rfl
      exact Option.get_of_eq_some _ hbuilt
    · exact ((nesting_le bounded _).1 kind 0 s _ hnested (Nat.zero_le limit)).1
  · have hlt := lt_stopOf_read source opened
    rw [h] at hlt
    exact hlt

/-- An item, and an object with one member, in an array. -/
def itemAndMember : Session Reader :=
  start (.ofBytes 0 (Bytes.ofString "[1,\x7b\"a\":2\x7d]")) {}

/-- A letter of two bytes, and an escape. -/
def letterAndEscape : Slice :=
  .ofBytes 0 [0x22, 0xC3, 0xA9, 0x5C, 0x6E, 0x22]

open Literal in
/-- Three builds are under way at one time, the third one that of the last number; and three passes
go over a string. -/
theorem building_goes_forward_itemAndMember :
    (∃ n v s', (∀ steps, 24 ≤ steps →
        nestedValue tokens 2 steps .array 0 itemAndMember = some (n, v, s')) ∧ n ≤ 3 ∧
        s'.state.remaining < 11) ∧
      0 < (moveTo itemAndMember 11).state.position ∧
      1 < (moveTo itemAndMember 3).state.position ∧
      8 < (moveTo itemAndMember 10).state.position ∧
      (∃ j, pass letterAndEscape 0 1 = .ok (j, false) ∧ 1 < j ∧ j ≤ 6) ∧
      (∃ j, pass letterAndEscape 0 3 = .ok (j, false) ∧ 3 < j ∧ j ≤ 6) ∧
      (∃ j, pass letterAndEscape 0 5 = .ok (j, true) ∧ 5 < j ∧ j ≤ 6) ∧
      Scans letterAndEscape 0 1 (.ok 6) ∧
      ∃ characters stop, read letterAndEscape 0 = .ok (characters, stop) ∧ 0 < stop := by
  obtain ⟨hbuild, hvalue, hitem, hmember, -, -, hstring⟩ := building_goes_forward
  obtain ⟨hpass, hscans, hread⟩ := hstring letterAndEscape 0
  refine ⟨?_, (hvalue 256 40 .array 0 _ itemAndMember (moveTo itemAndMember 11) rfl rfl).1,
    (hitem 256 40 .number 1 _ (moveTo itemAndMember 1) (moveTo itemAndMember 3) rfl rfl).1,
    (hmember 256 40 2 _ (moveTo itemAndMember 8) (moveTo itemAndMember 10) rfl rfl).1,
    ⟨3, rfl, hpass 1 3 false rfl⟩, ⟨5, rfl, hpass 3 5 false rfl⟩, ⟨6, rfl, hpass 5 6 true rfl⟩,
    hscans, _, _, rfl, hread _ _ rfl⟩
  obtain ⟨n, v, s', hanswer, -, hn, hless⟩ := hbuild 2 .array itemAndMember
  have hs' : s'.failed = false := by
    have hrun : value tokens 2 40 .array 0 itemAndMember = some (v, s') :=
      (hanswer 40 (by decide)).2
    have hend : (value tokens 2 40 .array 0 itemAndMember).map (·.2.failed) = some false := rfl
    rw [hrun] at hend
    exact Option.some.inj hend
  exact ⟨n, v, s', fun steps hle => (hanswer steps hle).1, hn, hless hs'⟩

end Reader

end JsonTree
