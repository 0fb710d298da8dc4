import JsonTree.Proofs.Inspection.Reader
import Mathlib.Logic.Function.Basic

/-!
# Footprint — a reader called in any order

A caller may call the operations of a reader in any order, whether they have been announced or not,
and hand over whatever error record it likes at each call, also one that has been set before.  The
calls of a run are logged (`log`), and so is what is looked at for them (`inspectLog`).

* `Operation.advances`, `Operation.follows`: what one call does, and what it looks at.
* `Call.within`, `Call.keeps`, `Call.follows`: the same of a call with one of many error records.
* `log_pairwise`, `exists_gives_inspectLog`: the same of a run.
* `calls_stay_inside`: of any calls from the beginning of a document on, the cursor goes forward and
  stays in the document; an error that is on record stays there; and only bytes of the document are
  looked at, so that nothing else in memory has a say in a reply, in a place or in an error.
-/

namespace JsonTree

/-- What may be asked of a reader. -/
inductive Operation where
  | peek
  | readNull
  | readBool (kind : Kind)
  | readString
  | openArray
  | nextItem
  | openObject
  | nextKey
  | readInteger
  | readFloat
  | finish

/-- What is replied, with strings of some type. -/
inductive Reply (τ : Type) where
  | nothing
  | kind (kind : Kind)
  | truth (b : Bool)
  | string (t : τ)
  | item (next : Option Kind)
  | key (next : Option τ)
  | integer (t : IntegerToken)
  | float (x : Binary64)
  | ended (b : Bool)

/-- The reply with other strings. -/
def Reply.map {α β : Type} (f : α → β) : Reply α → Reply β
  | nothing => .nothing
  | kind k => .kind k
  | truth b => .truth b
  | string t => .string (f t)
  | item next => .item next
  | key next => .key (next.map f)
  | integer t => .integer t
  | float x => .float x
  | ended b => .ended b

namespace Operation

open Inspection

/-- Calls the operation of a reader. -/
def run : Operation → Session Reader → Reply StringToken × Session Reader
  | peek, s => (Reader.peek s).map .kind id
  | readNull, s => (.nothing, Reader.readNull s)
  | readBool kind, s => (Reader.readBool kind s).map .truth id
  | readString, s => (Reader.readString s).map .string id
  | openArray, s => (Reader.openArray s).map .item id
  | nextItem, s => (Reader.nextItem s).map .item id
  | openObject, s => (Reader.openObject s).map .key id
  | nextKey, s => (Reader.nextKey s).map .key id
  | readInteger, s => (Reader.readInteger s).map .integer id
  | readFloat, s => (Reader.readFloat s).map .float id
  | finish, s => (Reader.finish s).map .ended id

/-- What is found is the reply. -/
def replying {α : Type} (reply : α → Reply Found) (p : Inspection (α × Cursor)) :
    Inspection (Reply Found × Cursor) := do
  let (a, c) ← p
  return (reply a, c)

/-- Goes through what is looked at for a call. -/
def inspect (size : Nat) (options : ReadOptions) :
    Operation → Cursor → Inspection (Reply Found × Cursor)
  | peek, c => replying .kind (Inspection.peek size options c)
  | readNull, c => do return (.nothing, ← readWord size (Bytes.ofString "null") c)
  | readBool kind, c => replying .truth (Inspection.readBool size kind c)
  | readString, c => replying .string (Inspection.readString size c)
  | openArray, c => replying .item (Inspection.openArray size options c)
  | nextItem, c => replying .item (Inspection.nextItem size options c)
  | openObject, c => replying .key (Inspection.openObject size c)
  | nextKey, c => replying .key (Inspection.nextKey size c)
  | readInteger, c => replying .integer (Inspection.readInteger size options c)
  | readFloat, c => replying .float (Inspection.readFloat size options c)
  | finish, c => replying .ended (Inspection.finish size options c)

/-- **One call advances.** -/
theorem advances (op : Operation) (s : Session Reader) : Reader.Advances s (op.run s).2 := by
  cases op with
  | peek => exact Reader.advances_peek s
  | readNull => exact Reader.advances_readWord _ s
  | readBool kind => exact Reader.advances_readBool kind s
  | readString => exact Reader.advances_readString s
  | openArray => exact Reader.advances_openArray s
  | nextItem => exact Reader.advances_nextItem s
  | openObject => exact Reader.advances_openObject s
  | nextKey => exact Reader.advances_nextKey s
  | readInteger => exact Reader.advances_readInteger s
  | readFloat => exact Reader.advances_readFloat s
  | finish => exact Reader.advances_finish s

theorem follows_replying {α β : Type} {source : Slice} {view : α → β}
    {p : Inspection (α × Cursor)} {r : β × Session Reader} {reply : α → Reply Found}
    {reply' : β → Reply StringToken} (h : Follows source view p r)
    (hreply : ∀ a, reply' (view a) = (reply a).map (Found.token source)) :
    Follows source (Reply.map (Found.token source)) (replying reply p) (r.map reply' id) := by
  obtain ⟨a, hp, hview⟩ := h
  refine ⟨reply a, hp.bind (.done _), ?_⟩
  rw [Prod.map_fst, hview]
  exact hreply a

/-- **One call looks at the document only.** -/
theorem follows (op : Operation) {s : Session Reader}
    (hin : s.state.position ≤ s.state.source.size) :
    Follows s.state.source (Reply.map (Found.token s.state.source))
      (op.inspect s.state.source.size s.state.options (.of s)) (op.run s) := by
  cases op with
  | peek => exact follows_replying (follows_peek s) fun _ => rfl
  | readNull => exact .behind (gives_readWord s _) (.done Reply.nothing _)
  | readBool kind => exact follows_replying (follows_readBool s kind) fun _ => rfl
  | readString => exact follows_replying (follows_readString s) fun _ => rfl
  | openArray => exact follows_replying (follows_openArray s) fun _ => rfl
  | nextItem => exact follows_replying (follows_nextItem s) fun _ => rfl
  | openObject => exact follows_replying (follows_openObject s) fun _ => rfl
  | nextKey => exact follows_replying (follows_nextKey s) fun _ => rfl
  | readInteger => exact follows_replying (follows_readInteger s hin) fun _ => rfl
  | readFloat => exact follows_replying (follows_readFloat s hin) fun _ => rfl
  | finish => exact follows_replying (follows_finish s) fun _ => rfl

end Operation

/-! ### Calls with many error records -/

/-- A reader, and the error records that may be handed to it. -/
structure Setting where
  reader : Reader
  records : Nat → Fault

/-- A place in a document, and the error records. -/
structure Place where
  position : Nat
  records : Nat → Fault

/-- The cursor has not moved back, and an error on record is the same still. -/
structure Place.Keeps (p p' : Place) : Prop where
  position : p.position ≤ p'.position
  records : ∀ k e, p.records k = some e → p'.records k = some e

theorem Place.Keeps.trans {p p₁ p' : Place} (h : p.Keeps p₁) (h' : p₁.Keeps p') : p.Keeps p' :=
  ⟨Nat.le_trans h.position h'.position, fun k e he => h'.records k e (h.records k e he)⟩

namespace Setting

/-- At the beginning of a document. -/
def start (source : Slice) (options : ReadOptions) (records : Nat → Fault) : Setting :=
  ⟨(Reader.start source options).state, records⟩

/-- Where the reader is. -/
def place (t : Setting) : Place :=
  ⟨t.reader.position, t.records⟩

/-- The reader is in a document. -/
structure Within (source : Slice) (options : ReadOptions) (t : Setting) : Prop where
  source_eq : t.reader.source = source
  options_eq : t.reader.options = options
  inside : t.reader.position ≤ source.size

theorem within_start (source : Slice) (options : ReadOptions) (records : Nat → Fault) :
    Within source options (start source options records) :=
  ⟨rfl, rfl, Nat.zero_le _⟩

end Setting

/-- An operation that is called, and which error record is handed over. -/
structure Call where
  operation : Operation
  record : Nat

namespace Call

open Inspection

variable {source : Slice} {options : ReadOptions} {t : Setting}

/-- Makes the call. -/
def run (c : Call) (t : Setting) : Reply StringToken × Setting :=
  let (reply, s) := c.operation.run ⟨t.reader, t.records c.record⟩
  (reply, ⟨s.state, Function.update t.records c.record s.fault⟩)

/-- Goes through what is looked at for the call. -/
def inspect (size : Nat) (options : ReadOptions) (c : Call) (p : Place) :
    Inspection (Reply Found × Place) := do
  let (reply, cursor) ← c.operation.inspect size options ⟨p.position, p.records c.record⟩
  return (reply, ⟨cursor.position, Function.update p.records c.record cursor.fault⟩)

/-- The reader stays in the document. -/
theorem within (c : Call) (h : t.Within source options) : (c.run t).2.Within source options := by
  obtain ⟨rfl, rfl, hin⟩ := h
  have hop := c.operation.advances ⟨t.reader, t.records c.record⟩
  refine ⟨hop.reaches.source, hop.reaches.options, ?_⟩
  have hinside := hop.inside hin
  rw [hop.reaches.source] at hinside
  exact hinside

/-- A call keeps what is on record, in the record that is handed over as in the others. -/
theorem keeps (c : Call) (t : Setting) : t.place.Keeps (c.run t).2.place := by
  have hop := c.operation.advances ⟨t.reader, t.records c.record⟩
  refine ⟨hop.reaches.position, fun k e (he : t.records k = some e) => ?_⟩
  change Function.update t.records c.record _ k = some e
  by_cases hk : k = c.record
  · subst hk
    rw [Function.update_self]
    exact hop.keeps e he
  · rw [Function.update_of_ne hk]
    exact he

theorem follows (c : Call) (h : t.Within source options) : ∃ reply,
    Gives source (c.inspect source.size options t.place) (reply, (c.run t).2.place) ∧
      (c.run t).1 = reply.map (Found.token source) := by
  obtain ⟨rfl, rfl, hin⟩ := h
  obtain ⟨reply, hgives, hreply⟩ := c.operation.follows (s := ⟨t.reader, t.records c.record⟩) hin
  exact ⟨reply, hgives.bind (.done _), hreply⟩

end Call

/-! ### Runs -/

/-- What the calls reply one after another, and where the reader is behind each. -/
def log : List Call → Setting → List (Reply StringToken × Place)
  | [], _ => []
  | c :: cs, t => ((c.run t).1, (c.run t).2.place) :: log cs (c.run t).2

/-- Goes through what is looked at for the calls. -/
def inspectLog (size : Nat) (options : ReadOptions) :
    List Call → Place → Inspection (List (Reply Inspection.Found × Place))
  | [], _ => return []
  | c :: cs, p => do
    let entry ← c.inspect size options p
    let rest ← inspectLog size options cs entry.2
    return entry :: rest

/-- What is found, in a document. -/
def toldOf (source : Slice) (seen : List (Reply Inspection.Found × Place)) :
    List (Reply StringToken × Place) :=
  seen.map fun entry => (entry.1.map (Inspection.Found.token source), entry.2)

section Runs

open Inspection

variable {source : Slice} {options : ReadOptions}

theorem keeps_of_mem_log (calls : List Call) (t : Setting) :
    ∀ p ∈ (log calls t).map (·.2), t.place.Keeps p := by
  induction calls generalizing t with
  | nil => simp [log]
  | cons c cs ih =>
      rw [log, List.map_cons, List.forall_mem_cons]
      exact ⟨c.keeps t, fun p hp => (c.keeps t).trans (ih _ p hp)⟩

/-- **Every place of a run is kept by those behind it.** -/
theorem log_pairwise (calls : List Call) (t : Setting) :
    (t.place :: (log calls t).map (·.2)).Pairwise Place.Keeps := by
  induction calls generalizing t with
  | nil => exact List.pairwise_singleton _ _
  | cons c cs ih => exact .cons (keeps_of_mem_log (c :: cs) t) (ih _)

/-- **No call of a run leaves the document.** -/
theorem le_size_of_mem_log (calls : List Call) {t : Setting} (h : t.Within source options) :
    ∀ p ∈ (log calls t).map (·.2), p.position ≤ source.size := by
  induction calls generalizing t with
  | nil => simp [log]
  | cons c cs ih =>
      rw [log, List.map_cons, List.forall_mem_cons]
      exact ⟨(c.within h).inside, ih (c.within h)⟩

/-- **A run looks at the document only**, and finds what the calls reply. -/
theorem exists_gives_inspectLog (calls : List Call) {t : Setting} (h : t.Within source options) :
    ∃ seen, Gives source (inspectLog source.size options calls t.place) seen ∧
      log calls t = toldOf source seen := by
  induction calls generalizing t with
  | nil => exact ⟨[], .done _, rfl⟩
  | cons c cs ih =>
      obtain ⟨reply, hcall, hreply⟩ := c.follows h
      obtain ⟨seen, hrest, hlog⟩ := ih (c.within h)
      refine ⟨(reply, (c.run t).2.place) :: seen, hcall.bind (hrest.bind (.done _)), ?_⟩
      rw [log, hlog, hreply]
      rfl

end Runs

/-- **Calls in any order stay inside the document.**  The cursor goes forward and does not leave the
document, and an error that is on record, from the beginning or since, is on record behind every
later call.  What is looked at is a byte of the document each time, and no part of it is asked for
that begins behind its end: whatever else a memory holds, the same is seen.  What is seen is what is
replied, with the same places and errors, over every buffer that has these bytes. -/
theorem calls_stay_inside (source : Slice) (options : ReadOptions) (records : Nat → Fault)
    (calls : List Call) :
    (⟨0, records⟩ :: (log calls (.start source options records)).map (·.2)).Pairwise Place.Keeps ∧
      (∀ p ∈ (log calls (.start source options records)).map (·.2), p.position ≤ source.size) ∧
      ∃ seen,
        (∀ memory, Inspection.Holds memory source →
          (inspectLog source.size options calls ⟨0, records⟩).answer? memory = some seen ∧
            ∀ i ∈ (inspectLog source.size options calls ⟨0, records⟩).indexes memory,
              i < source.size) ∧
        ∀ source' : Slice, source'.bytes = source.bytes →
          log calls (.start source' options records) = toldOf source' seen := by
  have hwithin := Setting.within_start source options records
  obtain ⟨seen, hseen, -⟩ := exists_gives_inspectLog calls hwithin
  refine ⟨log_pairwise calls (.start source options records), le_size_of_mem_log calls hwithin, seen,
    fun memory hm => ⟨hseen.answer?_eq hm, hseen.lt_of_mem_indexes hm⟩, fun source' hbytes => ?_⟩
  obtain ⟨seen', hseen', hlog⟩ :=
    exists_gives_inspectLog calls (Setting.within_start source' options records)
  have hsize : source'.size = source.size := by
    rw [← Slice.length_bytes, hbytes, Slice.length_bytes]
  rw [hsize] at hseen'
  rw [hlog, hseen.eq_of_bytes_eq hbytes hseen']

/-- The document ends behind the first digit, though another lies behind it; the other calls have
not been announced, and the last is handed a record that has been set. -/
example :
    (log [⟨.readInteger, 0⟩, ⟨.nextItem, 0⟩, ⟨.readFloat, 0⟩]
      (.start (.front 0 ⟨(Bytes.ofString " 12").toArray⟩ 2) {} fun _ => none)).map
        (fun entry => (entry.2.position, entry.2.records 0)) =
    [(2, none), (2, some ⟨.unexpectedEnd, 2, 1, 3⟩), (2, some ⟨.unexpectedEnd, 2, 1, 3⟩)] := by
  decide

end JsonTree
