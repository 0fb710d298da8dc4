import JsonTree.Proofs.Advance
import JsonTree.Proofs.Cursor
import JsonTree.Proofs.Offence

/-!
# Consumption — what goes well goes over bytes

Whatever consumes and records no error has gone over some bytes of the document
(`Reader.Consumes`).  Telling what comes next need not, and neither does looking for an integer
where another number stands.

A string is read by two loops, one up to the first escape and one from there on.  Together they go
over it pass by pass (`Literal.Scans`), and every pass is over a character, an escape or the closing
quote, so that there are no more passes than bytes.

* `Literal.lt_of_pass`: every pass goes forward.
* `Literal.scans_read`: what the two loops answer is where the passes have come to.
* `consumes_readString` and its like: the operations of a reader.
-/

namespace JsonTree

open Ascii Bytes

/-! ### Passes over a string -/

/-- Nothing is skipped where a byte needs a second look. -/
theorem Slice.skipPlain_self {s : Slice} {i : Nat} (h : Stops isPlain (s.rest i)) :
    s.skipPlain i = i := by
  have hnone : (s.rest i).takeWhile isPlain = [] := takeWhile_run (List.forall_mem_nil _) h
  rw [skipPlain_eq, hnone]
  rfl

/-- What has been skipped to is not skipped again. -/
theorem Slice.skipPlain_skipPlain (s : Slice) (i : Nat) :
    s.skipPlain (s.skipPlain i) = s.skipPlain i := by
  refine skipPlain_self ?_
  rw [s.skipPlain_eq i, rest_add_length List.takeWhile_append_dropWhile.symm]
  exact stops_dropWhile isPlain _

namespace Literal

/-- One pass over a string, behind its opening quote: over bytes that need no second look, and then
over one character, one escape or the closing quote.  Answers where it has come to, and whether that
is behind the closing quote. -/
def pass (s : Slice) (opened i : Nat) : Except LiteralFailure (Nat × Bool) :=
  let j := s.skipPlain i
  match s.get? j with
  | none => .error ⟨.unexpectedEnd, opened, j⟩
  | some b =>
    if b == quote then .ok (j + 1, true)
    else if b == backslash then (escape s opened j).map fun found => (found.2, false)
    else if isControl b then .error ⟨.invalidString, j, j⟩
    else
      match Utf8.decode? (s.ahead j 4) with
      | none => .error ⟨.invalidUtf8, j, j⟩
      | some (_, length) => .ok (j + length, false)

/-- From an index on, pass by pass, a string is gone over up to behind its closing quote, or up to
what is wrong with it. -/
inductive Scans (s : Slice) (opened : Nat) : Nat → Except LiteralFailure Nat → Prop where
  | failed {i : Nat} {f : LiteralFailure} : pass s opened i = .error f → Scans s opened i (.error f)
  | closed {i j : Nat} : pass s opened i = .ok (j, true) → Scans s opened i (.ok j)
  | onwards {i j : Nat} {r : Except LiteralFailure Nat} : pass s opened i = .ok (j, false) →
      Scans s opened j r → Scans s opened i r

variable {s : Slice} {opened i j : Nat} {r : Except LiteralFailure Nat}

/-- An escape goes forward, and not behind the end. -/
theorem lt_of_escape {bs : Bytes} (hi : s.get? i = some backslash)
    (h : escape s opened i = .ok (bs, j)) : i < j ∧ j ≤ s.size := by
  obtain ⟨text, back, hescape, hr, rfl⟩ := (escape_eq_ok_iff hi).mp h
  obtain ⟨tail, htext⟩ := exists_text_of_escape hescape
  have hpos : 0 < text.length := by
    rw [show text = backslash :: tail from htext]
    exact Nat.succ_pos _
  exact ⟨Nat.lt_add_of_pos_right hpos,
    Slice.add_length_le hr (Nat.le_of_lt (Slice.lt_size_of_get? hi))⟩

/-- **Every pass goes forward**, and not beyond the document. -/
theorem lt_of_pass {closed : Bool} (h : pass s opened i = .ok (j, closed)) :
    i < j ∧ j ≤ s.size := by
  have hle := s.le_skipPlain i
  rw [pass] at h
  split at h
  · cases h
  next b hb =>
    have hlt := Slice.lt_size_of_get? hb
    split at h
    · cases h
      exact ⟨Nat.lt_succ_of_le hle, hlt⟩
    split at h
    · next hbackslash =>
        rw [eq_of_beq hbackslash] at hb
        cases he : escape s opened (s.skipPlain i) with
        | error f =>
            rw [he] at h
            cases h
        | ok found =>
            rw [he] at h
            cases h
            obtain ⟨hless, hsize⟩ := lt_of_escape hb he
            exact ⟨Nat.lt_of_le_of_lt hle hless, hsize⟩
    split at h
    · cases h
    split at h
    · cases h
    next c length hd =>
      cases h
      obtain ⟨c, back, hr, rfl, hc⟩ := decode?_ahead_eq_some_iff.mp hd
      exact ⟨Nat.lt_of_le_of_lt hle (Nat.lt_add_of_pos_right hc.length_pos),
        Slice.add_length_le hr (Nat.le_of_lt hlt)⟩

/-- Bytes that need no second look may be gone over before. -/
theorem Scans.skipPlain (h : Scans s opened (s.skipPlain i) r) : Scans s opened i r := by
  have hpass : pass s opened (s.skipPlain i) = pass s opened i := by
    rw [pass, pass, s.skipPlain_skipPlain]
  cases h with
  | failed hf => exact .failed (hpass.symm.trans hf)
  | closed hj => exact .closed (hpass.symm.trans hj)
  | onwards hj hr => exact .onwards (hpass.symm.trans hj) hr

/-- A pass that comes to a byte that is neither a quote nor a backslash. -/
theorem pass_of_ordinary {b : UInt8} (hb : s.get? (s.skipPlain i) = some b)
    (hstop : ¬ (b == quote || b == backslash) = true) : pass s opened i =
      if isControl b then .error ⟨.invalidString, s.skipPlain i, s.skipPlain i⟩
      else
        match Utf8.decode? (s.ahead (s.skipPlain i) 4) with
        | none => .error ⟨.invalidUtf8, s.skipPlain i, s.skipPlain i⟩
        | some (_, length) => .ok (s.skipPlain i + length, false) := by
  rw [Bool.or_eq_true, not_or] at hstop
  rw [pass, hb]
  dsimp only
  rw [if_neg hstop.1, if_neg hstop.2]

/-- From an index on, pass by pass, a string is gone over up to the answered index, wherever the
passes go from there, or up to what is wrong with it. -/
def ScansTo (s : Slice) (opened i : Nat) : Except LiteralFailure Nat → Prop
  | .error f => Scans s opened i (.error f)
  | .ok j => ∀ r, Scans s opened j r → Scans s opened i r

/-- A pass before the others is one more pass. -/
theorem ScansTo.onwards {answer : Except LiteralFailure Nat} (h : pass s opened i = .ok (j, false))
    (hj : ScansTo s opened j answer) : ScansTo s opened i answer := by
  cases answer with
  | error f => exact Scans.onwards h hj
  | ok k => exact fun r hr => Scans.onwards h (hj r hr)

/-- **Characters that stand for themselves are gone over pass by pass.** -/
theorem scansTo_ordinaryEnd (remaining i : Nat) :
    ScansTo s opened i (ordinaryEnd s remaining i) := by
  induction remaining generalizing i with
  | zero => exact fun _ => id
  | succ n ih =>
      rw [ordinaryEnd]
      split
      · exact fun r => Scans.skipPlain
      next b hb =>
        split
        · exact fun r => Scans.skipPlain
        next hstop =>
          have hpass := @pass_of_ordinary s opened i b hb hstop
          split
          · next hcontrol =>
              rw [if_pos hcontrol] at hpass
              exact Scans.failed hpass
          next hcontrol =>
            rw [if_neg hcontrol] at hpass
            split
            · next hd =>
                rw [hd] at hpass
                exact Scans.failed hpass
            next c length hd =>
              rw [hd] at hpass
              exact .onwards hpass (ih _)

/-- A stretch without escapes is gone over by passes. -/
theorem scansTo_stretch (i : Nat) :
    ScansTo s opened i ((stretch s opened i).map (·.stop)) := by
  have hto := @scansTo_ordinaryEnd s opened (s.size - i) i
  rw [stretch]
  split
  · next hend =>
      rw [hend] at hto
      exact hto
  next j hend =>
    rw [hend] at hto
    split
    · next hnone =>
        have hj : s.skipPlain j = j := by
          refine Slice.skipPlain_self ?_
          rw [Slice.rest_eq_nil_of_get? hnone]
          exact stops_nil _
        refine hto _ (.failed ?_)
        rw [pass, hj, hnone]
    · exact hto

/-- A stretch ends on the quote or the backslash that it tells of. -/
theorem get?_of_stretch {part : Stretch} (h : stretch s opened i = .ok part) :
    s.get? part.stop = some (ending part.closed) := by
  obtain ⟨ps, back, -, hr, hstop⟩ := stretch_eq_ok_iff.mp h
  rw [hstop, Slice.get?_eq_head?, Slice.rest_add_length hr]
  rfl

/-- At the end of a stretch there is nothing to be gone over first. -/
theorem pass_of_ending {closed : Bool} (h : s.get? i = some (ending closed)) :
    pass s opened i = if closed then .ok (i + 1, true)
      else (escape s opened i).map fun found => (found.2, false) := by
  have hi : s.skipPlain i = i := by
    refine Slice.skipPlain_self ?_
    rw [Slice.rest_eq_cons_of_get? h, stops_cons]
    cases closed <;> rfl
  rw [pass, hi, h]
  cases closed <;> rfl

/-- Behind a stretch the string is closed, or goes on with an escape. -/
theorem scans_of_stretch {part : Stretch} (h : stretch s opened i = .ok part)
    (hquote : part.closed = true → r = .ok (part.stop + 1))
    (hescape : part.closed = false → s.get? part.stop = some backslash →
      Scans s opened part.stop r) : Scans s opened i r := by
  have hto := @scansTo_stretch s opened i
  have hend := get?_of_stretch h
  rw [h] at hto
  refine hto r ?_
  cases hclosed : part.closed with
  | true =>
      rw [hclosed] at hend
      rw [hquote hclosed]
      exact .closed (pass_of_ending hend)
  | false =>
      rw [hclosed] at hend
      exact hescape hclosed hend

/-- What is wrong with a stretch is wrong with the passes over it. -/
theorem scans_of_stretch_error {f : LiteralFailure} (h : stretch s opened i = .error f) :
    Scans s opened i (.error f) := by
  have hto := @scansTo_stretch s opened i
  rw [h] at hto
  exact hto

/-- **From an escape on, the rest of a string is gone over pass by pass.** -/
theorem scans_unescape {remaining : Nat} {out : Output} (hi : s.get? i = some backslash)
    (hremaining : s.size - i ≤ remaining) :
    Scans s opened i ((unescape s opened remaining i out).map (·.2)) := by
  induction remaining generalizing i out with
  | zero =>
      have hlt := Slice.lt_size_of_get? hi
      omega
  | succ n ih =>
      have hpass := @pass_of_ending s opened i false hi
      rw [unescape]
      cases he : escape s opened i with
      | error f =>
          rw [he] at hpass
          exact .failed hpass
      | ok found =>
          obtain ⟨bs, j⟩ := found
          rw [he] at hpass
          refine .onwards hpass ?_
          dsimp only
          cases hstretch : stretch s opened j with
          | error f => exact scans_of_stretch_error hstretch
          | ok part =>
              refine scans_of_stretch hstretch (fun hclosed => ?_) fun hclosed hend => ?_
              · dsimp only
                rw [if_pos hclosed]
                rfl
              · -- the escape and the stretch have used up one step and some bytes
                have hlt := (lt_of_pass hpass).1
                have hle := le_stopOf_stretch s opened j
                rw [hstretch] at hle
                dsimp only
                rw [if_neg (by simp [hclosed])]
                exact ih hend (by simp only [stopOf] at hle; omega)

/-- **A string is gone over pass by pass**, whether there are escapes in it or not. -/
theorem scans_read (s : Slice) (opened : Nat) :
    Scans s opened (opened + 1) ((read s opened).map (·.2)) := by
  rw [read]
  cases hstretch : stretch s opened (opened + 1) with
  | error f => exact scans_of_stretch_error hstretch
  | ok part =>
      refine scans_of_stretch hstretch (fun hclosed => ?_) fun hclosed hend => ?_
      · dsimp only
        rw [if_pos hclosed]
        rfl
      · have hscans := @scans_unescape s opened part.stop (s.size - part.stop)
          (.ofBytes (s.between (opened + 1) part.stop).bytes) hend (Nat.le_refl _)
        dsimp only
        rw [if_neg (by simp [hclosed])]
        split <;> next hu => rwa [hu] at hscans

end Literal

/-! ### Bytes gone over -/

namespace Reader

/-- The cursor has gone over bytes of the document, one at least. -/
def Consumes (s s' : Session Reader) : Prop :=
  ∃ b front, Passes (b :: front) s s'

namespace Consumes

variable {s s₁ s' : Session Reader} {front : Bytes}

/-- Whatever passes over a nonempty front consumes. -/
theorem of_passes (h : Passes front s s') (hpos : 0 < front.length) : Consumes s s' := by
  cases front with
  | nil => cases hpos
  | cons b front => exact ⟨b, front, h⟩

/-- What is consumed has been passed over. -/
theorem passes (h : Consumes s s') : ∃ front, Passes front s s' := by
  obtain ⟨b, front, h⟩ := h
  exact ⟨_, h⟩

/-- Consuming and then passing is consuming. -/
theorem before (h : Consumes s s₁) (h' : Passes front s₁ s') : Consumes s s' := by
  obtain ⟨b, front', h⟩ := h
  exact ⟨b, _, h.append h'⟩

/-- Passing and then consuming is consuming. -/
theorem behind (h : Passes front s s₁) (h' : Consumes s₁ s') : Consumes s s' := by
  obtain ⟨b, front', h'⟩ := h'
  exact .of_passes (h.append h') (by simp)

/-- The cursor is further on, and still in the document. -/
theorem forward (h : Consumes s s') :
    s.state.position < s'.state.position ∧ s'.state.position ≤ s.state.source.size := by
  obtain ⟨b, front, ⟨back, hr⟩, rfl⟩ := h
  have hlt : s.state.position < s.state.source.size := by
    refine Slice.lt_size_of_get? (b := b) ?_
    rw [Slice.get?_eq_head?, ← rest, hr]
    rfl
  exact ⟨Nat.lt_add_of_pos_right (Nat.succ_pos _), Slice.add_length_le hr (Nat.le_of_lt hlt)⟩

/-- What is consumed is no longer left. -/
theorem remaining_lt (h : Consumes s s') : s'.state.remaining < s.state.remaining := by
  obtain ⟨hlt, hle⟩ := h.forward
  obtain ⟨front, hpasses⟩ := h.passes
  rw [remaining, remaining, hpasses.source_eq]
  omega

end Consumes

/-! ### What consumes -/

/-- Reading a null goes over its word. -/
theorem consumes_readNull {s s' : Session Reader} (hs : s.failed = false) (h : readNull s = s')
    (hs' : s'.failed = false) : Consumes s s' := by
  obtain ⟨back, hr, rfl⟩ := (readNull_eq_iff hs).mp ⟨h, hs'⟩
  exact .of_passes (.of_rest hr) (Node.length_text_pos _)

/-- Reading a truth value goes over its word. -/
theorem consumes_readBool {s s' : Session Reader} {kind : Kind} {b : Bool} (hs : s.failed = false)
    (h : readBool kind s = (b, s')) (hs' : s'.failed = false) : Consumes s s' := by
  obtain ⟨-, back, hr, rfl⟩ := (readBool_eq_iff hs).mp ⟨h, hs'⟩
  exact .of_passes (.of_rest hr) (Node.length_text_pos _)

/-- Reading a string goes over its quotes at least. -/
theorem consumes_readString {s s' : Session Reader} {t : StringToken} (hs : s.failed = false)
    (h : readString s = (t, s')) (hs' : s'.failed = false) : Consumes s s' := by
  obtain ⟨l, back, hr, -, rfl⟩ := (readString_eq_iff hs).mp ⟨h, hs'⟩
  exact .of_passes (.of_rest hr) (Node.length_text_pos (.string l))

/-- The blanks before a number. -/
theorem exists_numberStart (s : Session Reader) :
    ∃ w : Blanks, Passes w.text s (skipBlank s) ∧ Stops isBlank (rest (skipBlank s)) := by
  obtain ⟨w, back, hr, hstops, hskip⟩ := exists_skipBlank s
  rw [hskip]
  refine ⟨w, .of_rest hr, ?_⟩
  rw [rest_skip hr]
  exact hstops

/-- An integer that is answered has been gone over; it has a digit at least. -/
theorem consumes_readInteger {s s' : Session Reader} {n : Int64} (hs : s.failed = false)
    (h : readInteger s = (.value n, s')) (hs' : s'.failed = false) : Consumes s s' := by
  obtain ⟨w, hblanks, hstops⟩ := exists_numberStart s
  rw [← readInteger_skipBlank] at h
  obtain ⟨literal, ⟨back, hr, -⟩, -, -, rfl⟩ :=
    (readInteger_eq_value_iff (s := skipBlank s) hs hstops).mp ⟨h, hs'⟩
  exact .behind hblanks (.of_passes (.of_rest hr) (Node.length_text_pos (.number literal)))

/-- A number that is no integer is left where it is. -/
theorem passes_readInteger {s s' : Session Reader} (hs : s.failed = false)
    (h : readInteger s = (.notInteger, s')) (hs' : s'.failed = false) :
    ∃ w : Blanks, Passes w.text s s' := by
  obtain ⟨w, hblanks, hstops⟩ := exists_numberStart s
  rw [← readInteger_skipBlank] at h
  obtain ⟨rfl, -⟩ := (readInteger_eq_notInteger_iff (s := skipBlank s) hs hstops).mp ⟨h, hs'⟩
  exact ⟨w, hblanks⟩

/-- A number that is answered has been gone over. -/
theorem consumes_readFloat {s s' : Session Reader} {x : Binary64} (hs : s.failed = false)
    (h : readFloat s = (x, s')) (hs' : s'.failed = false) : Consumes s s' := by
  obtain ⟨w, hblanks, hstops⟩ := exists_numberStart s
  rw [← readFloat_skipBlank] at h
  rcases (readFloat_eq_iff (s := skipBlank s) hs hstops).mp ⟨h, hs'⟩ with
    ⟨-, word, back, hr, -, rfl⟩ | ⟨literal, ⟨back, hr, -⟩, -, -, rfl⟩
  · exact .behind hblanks (.of_passes (.of_rest hr) (Node.length_text_pos (.nonFinite word)))
  · exact .behind hblanks (.of_passes (.of_rest hr) (Node.length_text_pos (.number literal)))

theorem Mark.consumes {mark : UInt8} {s s' : Session Reader} (h : Mark mark s s') :
    Consumes s s' := by
  obtain ⟨w, hpasses⟩ := mark_iff_passes.mp h
  exact .of_passes hpasses (by simp)

theorem Begins.passes {kind : Kind} {s s' : Session Reader} (h : Begins kind s s') :
    ∃ front, Passes front s s' := by
  obtain ⟨w, hpasses, -⟩ := begins_iff_passes.mp h
  exact ⟨_, hpasses⟩

theorem Key.passes {l : StringLiteral} {token : StringToken} {s s' : Session Reader}
    (h : Key l token s s') : ∃ front, Passes front s s' := by
  obtain ⟨w, w₁, s₁, hw, -, hkey⟩ := key_iff_passes.mp h
  exact ⟨_, hw.append hkey⟩

/-- Opening an array goes over its bracket. -/
theorem consumes_openArray {s s' : Session Reader} {next : Option Kind} (hs : s.failed = false)
    (h : openArray s = (next, s')) (hs' : s'.failed = false) : Consumes s s' := by
  obtain ⟨⟨back, hr⟩, hnext⟩ := (openArray_eq_iff hs).mp ⟨h, hs'⟩
  obtain ⟨front, hpasses⟩ : ∃ front, Passes front (step s) s' := by
    rcases hnext with ⟨-, hclose⟩ | ⟨kind, -, hbegins⟩
    · exact hclose.consumes.passes
    · exact hbegins.passes
  exact ⟨_, _, hpasses.cons hr⟩

theorem consumes_openObject {s s' : Session Reader} {next : Option StringToken}
    (hs : s.failed = false) (h : openObject s = (next, s')) (hs' : s'.failed = false) :
    Consumes s s' := by
  obtain ⟨⟨back, hr⟩, hnext⟩ := (openObject_eq_iff hs).mp ⟨h, hs'⟩
  obtain ⟨front, hpasses⟩ : ∃ front, Passes front (step s) s' := by
    rcases hnext with ⟨-, hclose⟩ | ⟨l, token, -, hkey⟩
    · exact hclose.consumes.passes
    · exact hkey.passes
  exact ⟨_, _, hpasses.cons hr⟩

/-- Going on in an array goes over the comma or the bracket. -/
theorem consumes_nextItem {s s' : Session Reader} {next : Option Kind} (hs : s.failed = false)
    (h : nextItem s = (next, s')) (hs' : s'.failed = false) : Consumes s s' := by
  rcases (nextItem_eq_iff hs).mp ⟨h, hs'⟩ with ⟨-, hclose⟩ | ⟨kind, s₁, -, hcomma, hbegins⟩
  · exact hclose.consumes
  · obtain ⟨front, hpasses⟩ := hbegins.passes
    exact hcomma.consumes.before hpasses

theorem consumes_nextKey {s s' : Session Reader} {next : Option StringToken}
    (hs : s.failed = false) (h : nextKey s = (next, s')) (hs' : s'.failed = false) :
    Consumes s s' := by
  rcases (nextKey_eq_iff hs).mp ⟨h, hs'⟩ with ⟨-, hclose⟩ | ⟨l, token, s₁, -, hcomma, hkey⟩
  · exact hclose.consumes
  · obtain ⟨front, hpasses⟩ := hkey.passes
    exact hcomma.consumes.before hpasses

end Reader

end JsonTree
