import JsonTree.Token

/-!
# Scripted token sources

A script is a token source whose answers are laid down in advance, one queue for each sort of
answer.  An operation takes the next entry of its queue; a queue that has run out is the
unexpected end of the document, and an entry may be a failure.  The place reported for an error is
the number of entries taken from the queue of kinds.
-/

namespace JsonTree

/-- One laid down answer. -/
inductive ScriptEntry (α : Type) where
  /-- The operation answers this. -/
  | answer (a : α)
  /-- The operation answers nothing, and records an error if there is a cause. -/
  | failure (code : Option ErrorCode)

/-- The answers that are left, and how many have been taken. -/
structure ScriptQueue (α : Type) where
  entries : List (ScriptEntry α) := []
  taken : Nat := 0

/-- The state of a scripted source. -/
structure Script where
  /-- The document the source claims to read. -/
  document : Slice
  /-- What `peek`, `openArray` and `nextItem` tell. -/
  kinds : ScriptQueue (Option Kind) := {}
  /-- What `readString`, `openObject` and `nextKey` read. -/
  strings : ScriptQueue (Option StringToken) := {}
  /-- What `readInteger` reads. -/
  integers : ScriptQueue IntegerToken := {}
  /-- What `readFloat` reads. -/
  floats : ScriptQueue Binary64 := {}
  /-- Whether null and the truth values can be read; without a queue they always can. -/
  literals : Option (ScriptQueue Unit) := none

namespace ScriptQueue

variable {α : Type}

/-- How many answers are left. -/
def left (q : ScriptQueue α) : Nat :=
  q.entries.length

/-- Takes the next entry; the answer is missing when the entry is a failure or there is none, and
the cause is missing when there is nothing to record. -/
def take (q : ScriptQueue α) : Option α × Option ErrorCode × ScriptQueue α :=
  match q.entries with
  | [] => (none, some .unexpectedEnd, q)
  | .answer a :: rest => (some a, none, ⟨rest, q.taken + 1⟩)
  | .failure code :: rest => (none, code, ⟨rest, q.taken + 1⟩)

/-- Taking from a queue never adds to it. -/
theorem left_take (q : ScriptQueue α) : q.take.2.2.left ≤ q.left := by
  unfold take left
  split <;> simp_all

/-- An answer that is taken is no longer left. -/
theorem left_take_lt (q : ScriptQueue α) (h : q.take.1.isSome) : q.take.2.2.left < q.left := by
  unfold take at *
  unfold left
  split at h <;> simp_all

end ScriptQueue

namespace Script

/-- Records the cause, if there is one, at the place the script has come to. -/
def note (s : Session Script) (code : Option ErrorCode) : Session Script :=
  match code with
  | none => s
  | some code => s.fail s.state.document code s.state.kinds.taken

/-- Takes from the queue of kinds. -/
def takeKind (s : Session Script) : Option (Option Kind) × Session Script :=
  let (a, code, q) := s.state.kinds.take
  (a, note { s with state := { s.state with kinds := q } } code)

/-- Takes from the queue of strings. -/
def takeString (s : Session Script) : Option (Option StringToken) × Session Script :=
  let (a, code, q) := s.state.strings.take
  (a, note { s with state := { s.state with strings := q } } code)

/-- Takes from the queue of integers. -/
def takeInteger (s : Session Script) : Option IntegerToken × Session Script :=
  let (a, code, q) := s.state.integers.take
  (a, note { s with state := { s.state with integers := q } } code)

/-- Takes from the queue of floating point numbers. -/
def takeFloat (s : Session Script) : Option Binary64 × Session Script :=
  let (a, code, q) := s.state.floats.take
  (a, note { s with state := { s.state with floats := q } } code)

/-- Takes from the queue of literals, if there is one. -/
def takeLiteral (s : Session Script) : Session Script :=
  match s.state.literals with
  | none => s
  | some q =>
    let (_, code, q) := q.take
    note { s with state := { s.state with literals := some q } } code

/-- The source that follows a script. -/
def tokens : TokenSource Script where
  document s := s.document
  position s := s.kinds.taken
  peek s := let (a, s) := takeKind s; (a.join.getD .null, s)
  readNull s := takeLiteral s
  readBool kind s := (kind == .true, takeLiteral s)
  readString s := let (a, s) := takeString s; (a.join.getD StringToken.none, s)
  openArray s := let (a, s) := takeKind s; (a.join, s)
  nextItem s := let (a, s) := takeKind s; (a.join, s)
  openObject s := let (a, s) := takeString s; (a.join, s)
  nextKey s := let (a, s) := takeString s; (a.join, s)
  readInteger s := let (a, s) := takeInteger s; (a.getD .notInteger, s)
  readFloat s := let (a, s) := takeFloat s; (a.getD Binary64.zero, s)

/-! ### A script comes to an end -/

/-- How many kinds and strings are left. -/
def left (s : Script) : Nat :=
  s.kinds.left + s.strings.left

/-- Noting an error takes no answer. -/
theorem note_state (s : Session Script) (code : Option ErrorCode) :
    (note s code).state = s.state := by
  cases code <;> rfl

theorem left_takeKind (s : Session Script) : (takeKind s).2.state.left ≤ s.state.left := by
  simp only [takeKind, note_state, left]
  exact Nat.add_le_add_right s.state.kinds.left_take _

theorem left_takeString (s : Session Script) : (takeString s).2.state.left ≤ s.state.left := by
  simp only [takeString, note_state, left]
  exact Nat.add_le_add_left s.state.strings.left_take _

/-- A kind that is told has been taken from the script. -/
theorem left_takeKind_lt (s : Session Script) (h : (takeKind s).1.join.isSome) :
    (takeKind s).2.state.left < s.state.left := by
  have hs : s.state.kinds.take.1.isSome := by
    cases hk : s.state.kinds.take.1 with
    | none => simp [takeKind, hk] at h
    | some k => rfl
  simp only [takeKind, note_state, left]
  exact Nat.add_lt_add_right (s.state.kinds.left_take_lt hs) _

/-- A key that is told has been taken from the script. -/
theorem left_takeString_lt (s : Session Script) (h : (takeString s).1.join.isSome) :
    (takeString s).2.state.left < s.state.left := by
  have hs : s.state.strings.take.1.isSome := by
    cases hk : s.state.strings.take.1 with
    | none => simp [takeString, hk] at h
    | some k => rfl
  simp only [takeString, note_state, left]
  exact Nat.add_lt_add_left (s.state.strings.left_take_lt hs) _

/-- Literals do not count for what is left: nothing is told of them. -/
theorem left_takeLiteral (s : Session Script) : (takeLiteral s).state.left = s.state.left := by
  unfold takeLiteral
  split
  · rfl
  · simp only [note_state, left]

/-- Every item and every key uses up an entry. -/
theorem bounded : tokens.Bounded left where
  peek s := left_takeKind s
  readNull s := Nat.le_of_eq (left_takeLiteral s)
  readBool _ s := Nat.le_of_eq (left_takeLiteral s)
  readString s := left_takeString s
  openArray s := left_takeKind s
  openArray_lt s h := left_takeKind_lt s h
  nextItem s := left_takeKind s
  nextItem_lt s h := left_takeKind_lt s h
  openObject s := left_takeString s
  openObject_lt s h := left_takeString_lt s h
  nextKey s := left_takeString s
  nextKey_lt s h := left_takeString_lt s h
  readInteger s := by simp [tokens, takeInteger, note_state, left]
  readFloat s := by simp [tokens, takeFloat, note_state, left]

end Script

end JsonTree
