import JsonTree.Reader.Progress
import JsonTree.Proofs.Literal
import JsonTree.Proofs.Numeral

/-!
# Advance — the cursor stays in the document, and the first error stays

Whatever operation of a reader is called, in whatever order and with whatever error on record, the
cursor does not move back, does not leave the document, and an error on record is not replaced
(`Reader.Advances`).  Every way of moving the cursor has its own reason to stay inside: a byte that
has been looked at, a search that ends at the document's end, bytes that stand there.
-/

namespace JsonTree

namespace Slice

/-- What stands at an index ends in the slice. -/
theorem add_length_le {s : Slice} {i : Nat} {front back : Bytes} (h : s.rest i = front ++ back)
    (hi : i ≤ s.size) : i + front.length ≤ s.size := by
  have hlen := congrArg List.length h
  rw [length_rest, List.length_append] at hlen
  omega

theorem skipBlank_le {s : Slice} {i : Nat} (hi : i ≤ s.size) : s.skipBlank i ≤ s.size := by
  rw [skipBlank_eq]
  exact add_length_le List.takeWhile_append_dropWhile.symm hi

theorem skipPlain_le {s : Slice} {i : Nat} (hi : i ≤ s.size) : s.skipPlain i ≤ s.size := by
  rw [skipPlain_eq]
  exact add_length_le List.takeWhile_append_dropWhile.symm hi

end Slice

namespace Literal

open Ascii

variable {s : Slice}

/-! ### Reading a literal stays in the document -/

/-- Reading a code stays inside: its digits are looked at only when they are there. -/
theorem stopOf_codePoint_le {i : Nat} (hi : i ≤ s.size) :
    stopOf (·.2) (codePoint s i) ≤ s.size := by
  have four : ∀ {j n}, j ≤ s.size → hexFour? s j = some n → j + 4 ≤ s.size := by
    intro j n hj h
    obtain ⟨digits, back, hdigits, hr⟩ := hexFour?_eq_some_iff.mp h
    rw [← hdigits.length_eq]
    exact Slice.add_length_le hr hj
  rw [codePoint]
  split
  · exact hi
  · next n hn =>
      have h₄ := four hi hn
      split
      · split
        · next hpair =>
            obtain ⟨back, hr⟩ := startsAt_iff.mp hpair
            have h₆ : i + 6 ≤ s.size := Slice.add_length_le hr h₄
            split
            · exact h₆
            · next low hlow =>
                have h₁₀ : i + 10 ≤ s.size := four h₆ hlow
                split
                · exact h₁₀
                · exact h₁₀
        · exact h₄
      · split
        · exact h₄
        · exact h₄

/-- Reading an escape stays inside. -/
theorem stopOf_escape_le (opened : Nat) {i : Nat} (hi : i < s.size) :
    stopOf (·.2) (escape s opened i) ≤ s.size := by
  rw [escape]
  split
  · exact hi
  · next b hb =>
      have hnext : i + 2 ≤ s.size := Slice.lt_size_of_get? hb
      split
      · exact hnext
      · split
        · exact stopOf_codePoint_le hnext
        · exact hnext

/-- Skipping what needs no decoding stays inside. -/
theorem stopOf_ordinaryEnd_le (remaining : Nat) {i : Nat} (hi : i ≤ s.size) :
    stopOf id (ordinaryEnd s remaining i) ≤ s.size := by
  induction remaining generalizing i with
  | zero => exact hi
  | succ n ih =>
      have hj := Slice.skipPlain_le hi
      rw [ordinaryEnd]
      split
      · exact hj
      · split
        · exact hj
        · split
          · exact hj
          · split
            · exact hj
            · next hd =>
                obtain ⟨c, back, hr, rfl, -⟩ := decode?_ahead_eq_some_iff.mp hd
                exact ih (Slice.add_length_le hr hj)

/-- A stretch without escapes ends inside. -/
theorem stopOf_stretch_le (opened : Nat) {i : Nat} (hi : i ≤ s.size) :
    stopOf (·.stop) (stretch s opened i) ≤ s.size := by
  have h := stopOf_ordinaryEnd_le (s.size - i) hi
  rw [stretch]
  cases hend : ordinaryEnd s (s.size - i) i with
  | error f =>
      rw [hend] at h
      exact h
  | ok j =>
      rw [hend] at h
      dsimp only
      split
      · exact h
      · exact h

/-- A stretch ends at a byte of the document. -/
theorem stop_lt_of_stretch {opened i : Nat} {part : Stretch} (h : stretch s opened i = .ok part) :
    part.stop < s.size := by
  rw [stretch] at h
  split at h
  · cases h
  · split at h
    · cases h
    · next b hb =>
        cases h
        exact Slice.lt_size_of_get? hb

/-- Decoding from a backslash on stays inside. -/
theorem stopOf_unescape_le (opened remaining : Nat) {i : Nat} (out : Output) (hi : i < s.size) :
    stopOf (·.2) (unescape s opened remaining i out) ≤ s.size := by
  induction remaining generalizing i out with
  | zero => exact Nat.le_of_lt hi
  | succ n ih =>
      have he := stopOf_escape_le opened hi
      rw [unescape]
      cases hescape : escape s opened i with
      | error f =>
          rw [hescape] at he
          exact he
      | ok found =>
          rw [hescape] at he
          have hs : stopOf (·.stop) (stretch s opened found.2) ≤ s.size :=
            stopOf_stretch_le opened he
          dsimp only
          cases hpart : stretch s opened found.2 with
          | error f =>
              rw [hpart] at hs
              exact hs
          | ok part =>
              have hstop := stop_lt_of_stretch hpart
              dsimp only
              split
              · exact hstop
              · exact ih _ hstop

/-- Reading a literal stops in the document. -/
theorem stopOf_read_le {opened : Nat} (ho : opened < s.size) :
    stopOf (·.2) (read s opened) ≤ s.size := by
  have hs := stopOf_stretch_le opened ho
  rw [read]
  cases hpart : stretch s opened (opened + 1) with
  | error f =>
      rw [hpart] at hs
      exact hs
  | ok part =>
      have hstop := stop_lt_of_stretch hpart
      dsimp only
      split
      · exact hstop
      · have hu := stopOf_unescape_le opened (s.size - part.stop)
          (.ofBytes (s.between (opened + 1) part.stop).bytes) hstop
        cases hread : unescape s opened (s.size - part.stop) part.stop
            (.ofBytes (s.between (opened + 1) part.stop).bytes) with
        | error f =>
            rw [hread] at hu
            exact hu
        | ok found =>
            rw [hread] at hu
            exact hu

end Literal

namespace Reader

open Ascii

/-- The cursor has not moved back and is still in the document, and an error on record is the same
still. -/
structure Advances (s s' : Session Reader) : Prop where
  reaches : Reaches s.state s'.state
  inside : s.state.position ≤ s.state.source.size → s'.state.position ≤ s'.state.source.size
  keeps : ∀ e, s.fault = some e → s'.fault = some e

namespace Advances

variable {s s₁ s' : Session Reader}

/-- Standing still is an advance. -/
theorem refl (s : Session Reader) : Advances s s :=
  ⟨.refl _, id, fun _ => id⟩

/-- Advances follow upon each other. -/
theorem trans (h : Advances s s₁) (h' : Advances s₁ s') : Advances s s' :=
  ⟨h.reaches.trans h'.reaches, fun hs => h'.inside (h.inside hs),
    fun e he => h'.keeps e (h.keeps e he)⟩

/-- Moving the cursor forward in the document. -/
theorem moveTo {i : Nat} (hle : s.state.position ≤ i)
    (hi : s.state.position ≤ s.state.source.size → i ≤ s.state.source.size) :
    Advances s (moveTo s i) :=
  ⟨reaches_moveTo s hle, hi, fun _ => id⟩

end Advances

/-- Recording an error moves nothing, and keeps the error that is on record. -/
theorem advances_failAt (s : Session Reader) (code : ErrorCode) (offset : Nat) :
    Advances s (failAt s code offset) := by
  refine ⟨reaches_failAt s code offset, id, fun e he => ?_⟩
  rw [failAt, Session.fail, he]
  rfl

theorem advances_failHere (s : Session Reader) (code : ErrorCode) : Advances s (failHere s code) :=
  advances_failAt s code _

/-- Skipping blanks goes forward, and never beyond the end. -/
theorem advances_skipBlank (s : Session Reader) : Advances s (skipBlank s) :=
  .moveTo (s.state.source.le_skipBlank _) Slice.skipBlank_le

/-- A byte that has been looked at can be gone over. -/
theorem advances_step {s : Session Reader} {b : UInt8} (h : s.state.here? = some b) :
    Advances s (step s) :=
  .moveTo (Nat.le_succ _) fun _ => Slice.lt_size_of_get? h

/-- To look at what comes next is to skip blanks. -/
theorem advances_peek (s : Session Reader) : Advances s (peek s).2 := by
  have hb := advances_skipBlank s
  rw [peek]
  split
  · exact hb.trans (advances_failHere _ _)
  · split
    · exact hb
    · exact hb.trans (advances_failHere _ _)

theorem advances_announce (s : Session Reader) : Advances s (announce s).2 :=
  advances_peek s

/-- A word is gone over only when it stands there, so it lies inside. -/
theorem advances_readWord (word : Bytes) (s : Session Reader) : Advances s (readWord word s) := by
  rw [readWord]
  split
  · exact advances_failHere s _
  next hlong =>
    split
    · exact .moveTo (Nat.le_add_right _ _) fun _ => by omega
    · exact advances_failHere s _

theorem advances_readBool (kind : Kind) (s : Session Reader) : Advances s (readBool kind s).2 := by
  rw [readBool]
  split
  · exact advances_readWord _ s
  · exact advances_readWord _ s

/-- A literal is gone over up to where reading it has stopped, in success and in failure. -/
theorem advances_readString (s : Session Reader) : Advances s (readString s).2 := by
  rw [readString]
  split
  · next hquote =>
      -- the literal is read from its quote on, and no further than the document goes
      have hlt := Nat.le_of_lt (Literal.lt_stopOf_read s.state.source s.state.position)
      have hle := Literal.stopOf_read_le (Slice.lt_size_of_get? hquote)
      split
      · next f hf =>
          rw [hf] at hlt hle
          exact (Advances.moveTo hlt fun _ => hle).trans (advances_failAt _ _ _)
      · next hread =>
          rw [hread] at hlt hle
          exact .moveTo hlt fun _ => hle
      · next hread =>
          rw [hread] at hlt hle
          exact .moveTo hlt fun _ => hle
  · exact advances_failHere s _

/-- A key is gone over with its colon. -/
theorem advances_readKey (s : Session Reader) : Advances s (readKey s).2 := by
  have hb := advances_skipBlank s
  rw [readKey]
  split
  · exact hb.trans (advances_failHere _ _)
  · split
    · have hs := hb.trans (advances_readString (skipBlank s))
      dsimp only
      split
      · exact hs
      · have hb' := hs.trans (advances_skipBlank _)
        split
        · exact hb'.trans (advances_failHere _ _)
        · next b' hb'' =>
            split
            · exact hb'.trans (advances_step hb'')
            · exact hb'.trans (advances_failHere _ _)
    · exact hb.trans (advances_failHere _ _)

/-- Opening an array goes over the bracket and announces its first item. -/
theorem advances_openArray (s : Session Reader) : Advances s (openArray s).2 := by
  rw [openArray]
  split
  · next hopen =>
      have hb := (advances_step hopen).trans (advances_skipBlank (step s))
      dsimp only
      split
      · next hclose => exact hb.trans (advances_step hclose)
      · exact hb.trans (advances_announce _)
  · exact advances_failHere s _

/-- Going on with an array goes over a comma or the closing bracket. -/
theorem advances_nextItem (s : Session Reader) : Advances s (nextItem s).2 := by
  have hb := advances_skipBlank s
  rw [nextItem]
  split
  · exact hb.trans (advances_failHere _ _)
  · next b hbyte =>
      have hs := hb.trans (advances_step hbyte)
      split
      · exact hs.trans (advances_announce _)
      · split
        · exact hs
        · exact hs.trans (advances_failAt _ _ _)

/-- Opening an object goes over the brace and reads its first key. -/
theorem advances_openObject (s : Session Reader) : Advances s (openObject s).2 := by
  rw [openObject]
  split
  · next hopen =>
      have hb := (advances_step hopen).trans (advances_skipBlank (step s))
      dsimp only
      split
      · next hclose => exact hb.trans (advances_step hclose)
      · exact hb.trans (advances_readKey _)
  · exact advances_failHere s _

/-- Going on with an object goes over a comma or the closing brace. -/
theorem advances_nextKey (s : Session Reader) : Advances s (nextKey s).2 := by
  have hb := advances_skipBlank s
  rw [nextKey]
  split
  · exact hb.trans (advances_failHere _ _)
  · next b hbyte =>
      have hs := hb.trans (advances_step hbyte)
      split
      · exact hs.trans (advances_readKey _)
      · split
        · exact hs
        · exact hs.trans (advances_failAt _ _ _)

/-- A number ends in the document. -/
theorem advances_numeral {s : Session Reader} {n : Numeral} {stop : Nat}
    (h : numeralAt s.state.source s.state.position = some (n, stop)) :
    Advances s (moveTo s stop) := by
  obtain ⟨-, ⟨rest, hr, -⟩, rfl⟩ := Numeral.numeralAt_eq_some_iff.mp h
  exact .moveTo (Nat.le_add_right _ _) (Slice.add_length_le hr)

/-- An integer is gone over when it is one, and otherwise nothing but the blanks before it. -/
theorem advances_readInteger (s : Session Reader) : Advances s (readInteger s).2 := by
  have hb := advances_skipBlank s
  rw [readInteger]
  split
  · exact hb
  · split
    · exact hb.trans (advances_failHere _ _)
    · next n stop hn =>
        split
        · split
          · exact hb
          · exact hb.trans (advances_numeral hn)
        · exact hb

/-- A number is gone over with a point or without. -/
theorem advances_readFloat (s : Session Reader) : Advances s (readFloat s).2 := by
  have hb := advances_skipBlank s
  rw [readFloat]
  split
  · next word x hword =>
      refine hb.trans (.moveTo (Nat.le_add_right _ _) fun hin => ?_)
      split at hword
      · have hstarts : (skipBlank s).state.source.startsAt (skipBlank s).state.position word := by
          have hfound := List.find?_some hword
          exact hfound
        obtain ⟨back, hr⟩ := Literal.startsAt_iff.mp hstarts
        exact Slice.add_length_le hr hin
      · cases hword
  · split
    · exact hb.trans (advances_failHere _ _)
    · next n stop hn =>
        dsimp only
        split
        · exact hb.trans (advances_numeral hn)
        · exact hb.trans (advances_failHere _ _)

/-- Looking for the end goes over blanks only. -/
theorem advances_finish (s : Session Reader) : Advances s (finish s).2 := by
  have hb := advances_skipBlank s
  rw [finish]
  split
  · exact hb.trans (advances_failHere _ _)
  · exact hb

end Reader

end JsonTree
