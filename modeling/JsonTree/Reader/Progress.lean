import JsonTree.Build
import JsonTree.Reader

/-!
# A reader moves forward

No operation of a reader moves the cursor back (`Reaches`), and an operation that announces an item
or a key has consumed a byte.  The bytes left are therefore a bound for reading (`bounded`), so that
a value can be built from any document in finitely many steps.
-/

namespace JsonTree

namespace Reader

/-- The same document, with the cursor at the same place or further on. -/
structure Reaches (r r' : Reader) : Prop where
  source : r'.source = r.source
  options : r'.options = r.options
  position : r.position ≤ r'.position

namespace Reaches

theorem refl (r : Reader) : Reaches r r :=
  ⟨rfl, rfl, Nat.le_refl _⟩

/-- Whatever is reached from a reader that has been reached is reached. -/
theorem trans {r₁ r₂ r₃ : Reader} (h : Reaches r₁ r₂) (h' : Reaches r₂ r₃) : Reaches r₁ r₃ :=
  ⟨h'.source.trans h.source, h'.options.trans h.options, Nat.le_trans h.position h'.position⟩

/-- What is reached has no more bytes left. -/
theorem remaining_le {r r' : Reader} (h : Reaches r r') : r'.remaining ≤ r.remaining := by
  have := h.position
  simp only [remaining, h.source]
  omega

end Reaches

/-- A move forward. -/
theorem reaches_moveTo (s : Session Reader) {i : Nat} (h : s.state.position ≤ i) :
    Reaches s.state (moveTo s i).state :=
  ⟨rfl, rfl, h⟩

/-- An error moves nothing. -/
theorem reaches_failAt (s : Session Reader) (code : ErrorCode) (offset : Nat) :
    Reaches s.state (failAt s code offset).state :=
  .refl _

theorem reaches_skipBlank (s : Session Reader) : Reaches s.state (skipBlank s).state :=
  reaches_moveTo s (s.state.source.le_skipBlank _)

theorem reaches_step (s : Session Reader) : Reaches s.state (step s).state :=
  reaches_moveTo s (Nat.le_succ _)

/-- Consuming the byte at the cursor leaves fewer bytes. -/
theorem remaining_step_lt (s : Session Reader) {b : UInt8} (h : s.state.here? = some b) :
    (step s).state.remaining < s.state.remaining := by
  have := Slice.lt_size_of_get? h
  simp only [remaining, step, moveTo]
  omega

theorem reaches_peek (s : Session Reader) : Reaches s.state (peek s).2.state := by
  have hb := reaches_skipBlank s
  unfold peek
  dsimp only
  split
  · exact hb
  · split <;> exact hb

theorem reaches_announce (s : Session Reader) : Reaches s.state (announce s).2.state :=
  reaches_peek s

theorem reaches_readWord (word : Bytes) (s : Session Reader) :
    Reaches s.state (readWord word s).state := by
  unfold readWord
  dsimp only
  split
  · exact .refl _
  split
  · exact reaches_moveTo s (Nat.le_add_right _ _)
  · exact .refl _

theorem reaches_readBool (kind : Kind) (s : Session Reader) :
    Reaches s.state (readBool kind s).2.state := by
  unfold readBool
  split <;> exact reaches_readWord _ s

/-- A string ends behind where it begins, and so does what is wrong with it. -/
theorem reaches_readString (s : Session Reader) : Reaches s.state (readString s).2.state := by
  have h := Nat.le_of_lt (Literal.lt_stopOf_read s.state.source s.state.position)
  unfold readString
  split
  · split
    · next f hf => exact reaches_moveTo s (by simpa [hf, Literal.stopOf] using h)
    · next part stop hp => exact reaches_moveTo s (by simpa [hp, Literal.stopOf] using h)
    · next bs stop hb => exact reaches_moveTo s (by simpa [hb, Literal.stopOf] using h)
  · exact .refl _

theorem reaches_readKey (s : Session Reader) : Reaches s.state (readKey s).2.state := by
  have hb := reaches_skipBlank s
  have hs := hb.trans (reaches_readString (skipBlank s))
  have hb' := hs.trans (reaches_skipBlank (readString (skipBlank s)).2)
  unfold readKey
  dsimp only
  split
  · exact hb
  split
  · split
    · exact hs
    · split
      · exact hb'
      · split
        · exact hb'.trans (reaches_step _)
        · exact hb'
  · exact hb

theorem reaches_openArray (s : Session Reader) : Reaches s.state (openArray s).2.state := by
  have hb := (reaches_step s).trans (reaches_skipBlank (step s))
  unfold openArray
  dsimp only
  split
  · split
    · exact hb.trans (reaches_step _)
    · exact hb.trans (reaches_announce _)
  · exact .refl _

theorem reaches_nextItem (s : Session Reader) : Reaches s.state (nextItem s).2.state := by
  have hb := reaches_skipBlank s
  have hs := hb.trans (reaches_step (skipBlank s))
  unfold nextItem
  dsimp only
  split
  · exact hb
  · split
    · exact hs.trans (reaches_announce _)
    · split <;> exact hs

theorem reaches_openObject (s : Session Reader) : Reaches s.state (openObject s).2.state := by
  have hb := (reaches_step s).trans (reaches_skipBlank (step s))
  unfold openObject
  dsimp only
  split
  · split
    · exact hb.trans (reaches_step _)
    · exact hb.trans (reaches_readKey _)
  · exact .refl _

theorem reaches_nextKey (s : Session Reader) : Reaches s.state (nextKey s).2.state := by
  have hb := reaches_skipBlank s
  have hs := hb.trans (reaches_step (skipBlank s))
  unfold nextKey
  dsimp only
  split
  · exact hb
  · split
    · exact hs.trans (reaches_readKey _)
    · split <;> exact hs

/-- A number does not end before it begins. -/
theorem le_of_numeralAt {s : Slice} {i stop : Nat} {n : Numeral}
    (h : numeralAt s i = some (n, stop)) : i ≤ stop := by
  simp only [numeralAt, Option.map_eq_some_iff, Prod.mk.injEq] at h
  obtain ⟨a, _, _, rfl⟩ := h
  exact Nat.le_add_right i _

theorem reaches_readInteger (s : Session Reader) : Reaches s.state (readInteger s).2.state := by
  have hb := reaches_skipBlank s
  unfold readInteger
  dsimp only
  split
  · exact hb
  · split
    · exact hb
    · next n stop hn =>
      split
      · split
        · exact hb
        · exact hb.trans (reaches_moveTo _ (le_of_numeralAt hn))
      · exact hb

theorem reaches_readFloat (s : Session Reader) : Reaches s.state (readFloat s).2.state := by
  have hb := reaches_skipBlank s
  unfold readFloat
  dsimp only
  split
  · exact hb.trans (reaches_moveTo _ (Nat.le_add_right _ _))
  · split
    · exact hb
    · next n stop hn =>
      split
      · exact hb.trans (reaches_moveTo _ (le_of_numeralAt hn))
      · exact hb

/-! ### Announcing consumes -/

/-- An array with an item has been entered over its bracket. -/
theorem remaining_openArray_lt (s : Session Reader) (h : (openArray s).1.isSome) :
    (openArray s).2.state.remaining < s.state.remaining := by
  unfold openArray at *
  dsimp only at *
  split at h
  · next hb =>
    split at h
    · simp at h
    · next hc =>
      simp only [hb, hc, ↓reduceIte]
      exact Nat.lt_of_le_of_lt
        (((reaches_skipBlank _).trans (reaches_announce _)).remaining_le) (remaining_step_lt s hb)
  · simp at h

/-- An object with a key has been entered over its brace. -/
theorem remaining_openObject_lt (s : Session Reader) (h : (openObject s).1.isSome) :
    (openObject s).2.state.remaining < s.state.remaining := by
  unfold openObject at *
  dsimp only at *
  split at h
  · next hb =>
    split at h
    · simp at h
    · next hc =>
      simp only [hb, hc, ↓reduceIte]
      exact Nat.lt_of_le_of_lt
        (((reaches_skipBlank _).trans (reaches_readKey _)).remaining_le) (remaining_step_lt s hb)
  · simp at h

/-- A further item is behind a comma. -/
theorem remaining_nextItem_lt (s : Session Reader) (h : (nextItem s).1.isSome) :
    (nextItem s).2.state.remaining < s.state.remaining := by
  refine Nat.lt_of_lt_of_le ?_ (reaches_skipBlank s).remaining_le
  unfold nextItem at *
  dsimp only at *
  split at h
  · simp at h
  · next b hb =>
    split at h
    · next hc =>
      simp only [hc, ↓reduceIte]
      exact Nat.lt_of_le_of_lt (reaches_announce _).remaining_le (remaining_step_lt _ hb)
    · split at h <;> simp at h

/-- A further key is behind a comma. -/
theorem remaining_nextKey_lt (s : Session Reader) (h : (nextKey s).1.isSome) :
    (nextKey s).2.state.remaining < s.state.remaining := by
  refine Nat.lt_of_lt_of_le ?_ (reaches_skipBlank s).remaining_le
  unfold nextKey at *
  dsimp only at *
  split at h
  · simp at h
  · next b hb =>
    split at h
    · next hc =>
      simp only [hc, ↓reduceIte]
      exact Nat.lt_of_le_of_lt (reaches_readKey _).remaining_le (remaining_step_lt _ hb)
    · split at h <;> simp at h

/-- The bytes left bound the reading of a document. -/
theorem bounded : tokens.Bounded remaining where
  peek s := (reaches_peek s).remaining_le
  readNull s := (reaches_readWord _ s).remaining_le
  readBool kind s := (reaches_readBool kind s).remaining_le
  readString s := (reaches_readString s).remaining_le
  openArray s := (reaches_openArray s).remaining_le
  openArray_lt s h := remaining_openArray_lt s h
  nextItem s := (reaches_nextItem s).remaining_le
  nextItem_lt s h := remaining_nextItem_lt s h
  openObject s := (reaches_openObject s).remaining_le
  openObject_lt s h := remaining_openObject_lt s h
  nextKey s := (reaches_nextKey s).remaining_le
  nextKey_lt s h := remaining_nextKey_lt s h
  readInteger s := (reaches_readInteger s).remaining_le
  readFloat s := (reaches_readFloat s).remaining_le

/-- Builds the value that has been announced as the given kind; null when an error is recorded. -/
def buildAnnounced (limit : Nat) (kind : Kind) (s : Session Reader) : Value × Session Reader :=
  bounded.buildAnnounced limit kind s

/-- Builds the value that comes next; null when an error is recorded. -/
def build (limit : Nat) (s : Session Reader) : Value × Session Reader :=
  bounded.build limit s

end Reader

end JsonTree
