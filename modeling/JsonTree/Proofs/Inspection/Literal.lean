import JsonTree.Proofs.Advance
import JsonTree.Proofs.Inspection

/-!
# Inspection of string literals

A literal is gone through test by test: the bytes of a character beyond ASCII are looked at only
when there are as many as its first byte announces, four hexadecimal digits only when there are four
bytes, and the second byte of what begins the other half of a pair only behind a backslash.  What
stands between escapes is copied, and so is looked at once more.

* `gives_character?`: a character is decoded.
* `gives_escape`: an escape is decoded.
* `gives_literal`: a literal is read.
-/

namespace JsonTree

namespace Inspection

variable {s : Slice}

/-! ### Characters -/

/-- Joins so many continuation bytes from an index on, up to one that is none. -/
def continuation? : (count i soFar : Nat) → Inspection (Option Nat)
  | 0, _, soFar => return some soFar
  | count + 1, i, soFar => do
    let b ← byte i
    if b &&& 0xC0 == 0x80 then continuation? count (i + 1) (soFar <<< 6 ||| (b &&& 0x3F).toNat)
    else return none

/-- The character at an index and the number of bytes it takes; the continuation bytes are looked at
only if there are as many as the first byte announces. -/
def character? (size i : Nat) : Inspection (Option (Nat × Nat)) := do
  match ← byte? size i with
  | none => return none
  | some b =>
    match Utf8.lead? b with
    | none => return none
    | some lead =>
      if size - i < lead.length then return none
      else
        match ← continuation? (lead.length - 1) (i + 1) lead.payload with
        | none => return none
        | some n =>
          return if lead.least ≤ n && Utf8.isScalar n then some (n, lead.length) else none

/-- As many tail bytes are looked at as there have to be, when so many are left. -/
theorem gives_continuation? {count i k : Nat} (h : count ≤ s.size - i) (hk : count ≤ k)
    (soFar : Nat) : Gives s (continuation? count i soFar)
      (Utf8.continuation? count soFar ((s.rest i).take k)) := by
  induction count generalizing i k soFar with
  | zero => exact .done _
  | succ n ih =>
      have hi : i < s.size := by omega
      obtain ⟨k, rfl⟩ : ∃ m, k = m + 1 := ⟨k - 1, by omega⟩
      rw [continuation?, Slice.rest_eq_cons_of_get? (get?_of_lt hi), List.take_succ_cons,
        Utf8.continuation?]
      refine (gives_byte hi).bind ?_
      split
      · exact ih (by omega) (by omega) _
      · exact .done _

/-- With fewer tail bytes than there have to be, a character is not complete. -/
theorem continuation?_of_short {count soFar : Nat} {bs : Bytes} (h : bs.length < count) :
    Utf8.continuation? count soFar bs = none := by
  induction count generalizing soFar bs with
  | zero => omega
  | succ n ih =>
      cases bs with
      | nil => rfl
      | cons b bs =>
          rw [Utf8.continuation?]
          split
          · exact ih (by simpa using h)
          · rfl

/-- The first byte of a character tells that it has at most four. -/
theorem lead_length {b : UInt8} {lead : Utf8.Lead} (h : Utf8.lead? b = some lead) :
    1 ≤ lead.length ∧ lead.length ≤ 4 := by
  rw [Utf8.lead?] at h
  -- one of four shapes, or none
  repeat' split at h
  all_goals cases h
  all_goals exact ⟨by simp, by simp⟩

/-- A character is looked at behind one test for its length. -/
theorem gives_character? (s : Slice) (i : Nat) :
    Gives s (character? s.size i) (Utf8.decode? (s.ahead i 4)) := by
  rw [character?, Slice.ahead_eq_take]
  refine (gives_byte? s i).bind ?_
  cases hget : s.get? i with
  | none =>
      rw [Slice.rest_eq_nil_of_get? hget]
      exact .done _
  | some b =>
      rw [Slice.rest_eq_cons_of_get? hget, List.take_succ_cons, Utf8.decode?]
      dsimp only
      cases hlead : Utf8.lead? b with
      | none => exact .done _
      | some lead =>
          obtain ⟨hpos, hfour⟩ := lead_length hlead
          have hi : i < s.size := Slice.lt_size_of_get? hget
          have hlen : ((s.rest (i + 1)).take 3).length = min 3 (s.size - (i + 1)) := by
            rw [List.length_take, Slice.length_rest]
          dsimp only
          split
          · have hshort : ((s.rest (i + 1)).take 3).length < lead.length - 1 := by omega
            rw [continuation?_of_short hshort]
            exact .done _
          · have hall : lead.length - 1 ≤ s.size - (i + 1) := by omega
            have hthree : lead.length - 1 ≤ 3 := by omega
            refine (gives_continuation? hall hthree _).bind ?_
            cases Utf8.continuation? (lead.length - 1) lead.payload ((s.rest (i + 1)).take 3) with
            | none => exact .done _
            | some n => exact .done _

/-! ### Escapes -/

/-- The value of four hexadecimal digits, which are looked at only if there are four bytes. -/
def hexFour? (size i : Nat) : Inspection (Option Nat) := do
  if size < i + 4 then return none
  else
    match ← bytes 4 i with
    | [a, b, c, d] =>
      return do
        let a ← Literal.hexValue? a
        let b ← Literal.hexValue? b
        let c ← Literal.hexValue? c
        let d ← Literal.hexValue? d
        return a <<< 12 ||| b <<< 8 ||| c <<< 4 ||| d
    | _ => return none

/-- A backslash and the letter of a code point stand at an index; the letter is looked at only
behind a backslash. -/
def codePointFollows (size i : Nat) : Inspection Bool := do
  if size < i + 2 then return false
  else
    let b ← byte i
    if b == Ascii.backslash then
      let c ← byte (i + 1)
      return c == 'u'.toUInt8
    else return false

/-- The bytes of the code point whose digits begin at an index, and where they end. -/
def codePoint (size i : Nat) : Inspection (Except LiteralFailure (Bytes × Nat)) := do
  match ← hexFour? size i with
  | none => return .error ⟨.invalidUnicodeEscape, i, i⟩
  | some n =>
    if Literal.isHighSurrogate n then
      if ← codePointFollows size (i + 4) then
        match ← hexFour? size (i + 6) with
        | none => return .error ⟨.invalidUnicodeEscape, i + 6, i + 6⟩
        | some low =>
          if Literal.isLowSurrogate low then
            return .ok (Utf8.encode (Literal.joinSurrogates n low), i + 10)
          else return .error ⟨.invalidSurrogate, i + 10, i + 10⟩
      else return .error ⟨.invalidSurrogate, i + 4, i + 4⟩
    else if Literal.isLowSurrogate n then return .error ⟨.invalidSurrogate, i + 4, i + 4⟩
    else return .ok (Utf8.encode n, i + 4)

/-- The bytes that the escape at an index stands for, and where it ends. -/
def escape (size opened i : Nat) : Inspection (Except LiteralFailure (Bytes × Nat)) := do
  match ← byte? size (i + 1) with
  | none => return .error ⟨.unexpectedEnd, opened, i + 1⟩
  | some b =>
    match Literal.simpleEscape? b with
    | some c => return .ok ([c], i + 2)
    | none =>
      if b == 'u'.toUInt8 then codePoint size (i + 2)
      else return .error ⟨.invalidEscape, i + 1, i + 2⟩

/-- Four digits are looked at when four bytes are left. -/
theorem gives_hexFour? (s : Slice) (i : Nat) :
    Gives s (hexFour? s.size i) (Literal.hexFour? s i) := by
  rw [hexFour?, Literal.hexFour?]
  split
  · next hlt =>
      have hshort : (s.ahead i 4).length < 4 := by
        rw [Slice.ahead_eq_take, List.length_take, Slice.length_rest]
        omega
      split
      · next h =>
          rw [h] at hshort
          simp at hshort
      · exact .done _
  · refine (gives_bytes (by omega)).bind ?_
    generalize s.ahead i 4 = block
    rcases block with _ | ⟨a, _ | ⟨b, _ | ⟨c, _ | ⟨d, _ | ⟨e, block⟩⟩⟩⟩⟩ <;> exact .done _

/-- Too few bytes are left for something to stand there. -/
theorem startsAt_of_short {i : Nat} {front : Bytes} (h : s.size - i < front.length) :
    s.startsAt i front = false := by
  rw [Bool.eq_false_iff]
  intro hstarts
  obtain ⟨back, hr⟩ := Literal.startsAt_iff.mp hstarts
  have hlen := congrArg List.length hr
  rw [Slice.length_rest, List.length_append] at hlen
  omega

/-- A second code is looked for when two bytes are left. -/
theorem gives_codePointFollows (s : Slice) (i : Nat) :
    Gives s (codePointFollows s.size i) (s.startsAt i [Ascii.backslash, 'u'.toUInt8]) := by
  rw [codePointFollows]
  split
  · next hlt =>
      have hshort : s.size - i < [Ascii.backslash, 'u'.toUInt8].length := by
        rw [List.length_cons, List.length_singleton]
        omega
      rw [startsAt_of_short hshort]
      exact .done _
  · next hge =>
      have hi : i < s.size := by omega
      have hi' : i + 1 < s.size := by omega
      have hstarts : s.startsAt i [Ascii.backslash, 'u'.toUInt8] =
          (s.byte i hi == Ascii.backslash && s.byte (i + 1) hi' == 'u'.toUInt8) := by
        rw [Slice.startsAt, Slice.ahead_eq_take, Slice.rest_eq_cons_of_get? (get?_of_lt hi),
          Slice.rest_eq_cons_of_get? (get?_of_lt hi')]
        simp
      rw [hstarts]
      refine (gives_byte hi).bind ?_
      cases s.byte i hi == Ascii.backslash with
      | false => exact .done _
      | true => exact (gives_byte hi').map _

/-- A code, or a pair of them. -/
theorem gives_codePoint (s : Slice) (i : Nat) :
    Gives s (codePoint s.size i) (Literal.codePoint s i) := by
  rw [codePoint, Literal.codePoint]
  refine (gives_hexFour? s i).bind ?_
  cases Literal.hexFour? s i with
  | none => exact .done _
  | some n =>
      dsimp only
      split
      · refine (gives_codePointFollows s (i + 4)).bind ?_
        cases s.startsAt (i + 4) [Ascii.backslash, 'u'.toUInt8] with
        | false => exact .done _
        | true =>
            refine (gives_hexFour? s (i + 6)).bind ?_
            cases Literal.hexFour? s (i + 6) with
            | none => exact .done _
            | some low =>
                dsimp only
                split
                · exact .done _
                · exact .done _
      · split
        · exact .done _
        · exact .done _

/-- An escape is looked at byte by byte. -/
theorem gives_escape (s : Slice) (opened i : Nat) :
    Gives s (escape s.size opened i) (Literal.escape s opened i) := by
  rw [escape, Literal.escape]
  refine (gives_byte? s (i + 1)).bind ?_
  cases s.get? (i + 1) with
  | none => exact .done _
  | some b =>
      dsimp only
      cases Literal.simpleEscape? b with
      | some c => exact .done _
      | none =>
          dsimp only
          split
          · exact gives_codePoint s (i + 2)
          · exact .done _

/-! ### String literals -/

/-- Where the characters from an index on that stand for themselves end. -/
def ordinaryEnd (size : Nat) : (remaining i : Nat) → Inspection (Except LiteralFailure Nat)
  | 0, i => return .ok i
  | remaining + 1, i => do
    let j ← skipPlain size i
    match ← byte? size j with
    | none => return .ok j
    | some b =>
      if b == Ascii.quote || b == Ascii.backslash then return .ok j
      else if Ascii.isControl b then return .error ⟨.invalidString, j, j⟩
      else
        match ← character? size j with
        | none => return .error ⟨.invalidUtf8, j, j⟩
        | some (_, length) => ordinaryEnd size remaining (j + length)

/-- The stretch without escapes from an index on. -/
def stretch (size opened i : Nat) : Inspection (Except LiteralFailure Literal.Stretch) := do
  match ← ordinaryEnd size (size - i) i with
  | .error f => return .error f
  | .ok j =>
    match ← byte? size j with
    | none => return .error ⟨.unexpectedEnd, opened, j⟩
    | some b => return .ok ⟨j, b == Ascii.quote⟩

/-- Reads on from a backslash to the closing quote; the stretches between escapes are copied. -/
def unescape (size opened : Nat) :
    (remaining i : Nat) → Output → Inspection (Except LiteralFailure (Bytes × Nat))
  | 0, i, _ => return .error ⟨.unexpectedEnd, opened, i⟩
  | remaining + 1, i, out => do
    match ← escape size opened i with
    | .error f => return .error f
    | .ok (bs, j) =>
      match ← stretch size opened j with
      | .error f => return .error f
      | .ok part =>
        let copied ← bytes (part.stop - j) j
        let out := (out.append bs).append copied
        if part.closed then return .ok (out.bytes, part.stop + 1)
        else unescape size opened remaining part.stop out

/-- The characters of a literal as they are found: a place in the document, or bytes. -/
inductive Found where
  /-- So many bytes of the document from an index on. -/
  | part (i n : Nat)
  | loose (bs : Bytes)

/-- The characters that are found, in a document. -/
def Found.characters (s : Slice) : Found → Characters
  | part i n => .slice (s.sub i n)
  | loose bs => .loose bs

/-- Reads the literal whose quote stands at an index; one without escapes is not copied. -/
def literal (size opened : Nat) : Inspection (Except LiteralFailure (Found × Nat)) := do
  match ← stretch size opened (opened + 1) with
  | .error f => return .error f
  | .ok part =>
    if part.closed then return .ok (.part (opened + 1) (part.stop - (opened + 1)), part.stop + 1)
    else
      let copied ← bytes (part.stop - (opened + 1)) (opened + 1)
      match ← unescape size opened (size - part.stop) part.stop (.ofBytes copied) with
      | .error f => return .error f
      | .ok (bs, stop) => return .ok (.loose bs, stop)

/-- What needs no decoding is gone over by searches, and by characters beyond ASCII. -/
theorem gives_ordinaryEnd (s : Slice) (remaining i : Nat) :
    Gives s (ordinaryEnd s.size remaining i) (Literal.ordinaryEnd s remaining i) := by
  induction remaining generalizing i with
  | zero => exact .done _
  | succ n ih =>
      rw [ordinaryEnd, Literal.ordinaryEnd]
      refine (gives_skipPlain s i).bind ?_
      generalize s.skipPlain i = j
      refine (gives_byte? s j).bind ?_
      cases s.get? j with
      | none => exact .done _
      | some b =>
          dsimp only
          split
          · exact .done _
          split
          · exact .done _
          · refine (gives_character? s j).bind ?_
            cases Utf8.decode? (s.ahead j 4) with
            | none => exact .done _
            | some found => exact ih _

/-- A stretch without escapes, and the byte that ends it. -/
theorem gives_stretch (s : Slice) (opened i : Nat) :
    Gives s (stretch s.size opened i) (Literal.stretch s opened i) := by
  rw [stretch, Literal.stretch]
  refine (gives_ordinaryEnd s _ i).bind ?_
  cases Literal.ordinaryEnd s (s.size - i) i with
  | error f => exact .done _
  | ok j =>
      refine (gives_byte? s j).bind ?_
      dsimp only
      cases s.get? j with
      | none => exact .done _
      | some b => exact .done _

/-- Escapes and stretches in turn, up to the closing quote. -/
theorem gives_unescape (s : Slice) (opened remaining i : Nat) (out : Output) :
    Gives s (unescape s.size opened remaining i out) (Literal.unescape s opened remaining i out) := by
  induction remaining generalizing i out with
  | zero => exact .done _
  | succ n ih =>
      rw [unescape, Literal.unescape]
      refine (gives_escape s opened i).bind ?_
      cases Literal.escape s opened i with
      | error f => exact .done _
      | ok found =>
          refine (gives_stretch s opened found.2).bind ?_
          dsimp only
          cases hpart : Literal.stretch s opened found.2 with
          | error f => exact .done _
          | ok part =>
              have hstop := Literal.stop_lt_of_stretch hpart
              refine (gives_bytes (by omega)).bind ?_
              dsimp only
              split
              · exact .done _
              · exact ih _ _

/-- **A literal is found as it is read.** -/
theorem gives_literal (s : Slice) (opened : Nat) :
    ∃ r, Gives s (literal s.size opened) r ∧
      Literal.read s opened = r.map fun p => (p.1.characters s, p.2) := by
  have hstretch := gives_stretch s opened (opened + 1)
  rw [literal, Literal.read]
  cases hpart : Literal.stretch s opened (opened + 1) with
  | error f =>
      rw [hpart] at hstretch
      exact ⟨.error f, hstretch.bind (.done _), rfl⟩
  | ok part =>
      rw [hpart] at hstretch
      have hstop := Literal.stop_lt_of_stretch hpart
      dsimp only
      cases hclosed : part.closed with
      | true =>
          refine ⟨.ok (.part (opened + 1) (part.stop - (opened + 1)), part.stop + 1),
            hstretch.bind ?_, rfl⟩
          dsimp only
          rw [hclosed, if_pos rfl]
          exact .done _
      | false =>
          -- what stands before the first backslash is copied, and then the rest is read
          have hcopied : Gives s (bytes (part.stop - (opened + 1)) (opened + 1))
              (s.between (opened + 1) part.stop).bytes := gives_bytes (by omega)
          have hrest := gives_unescape s opened (s.size - part.stop) part.stop
            (.ofBytes (s.between (opened + 1) part.stop).bytes)
          rw [if_neg Bool.false_ne_true]
          cases hread : Literal.unescape s opened (s.size - part.stop) part.stop
              (.ofBytes (s.between (opened + 1) part.stop).bytes) with
          | error f =>
              rw [hread] at hrest
              refine ⟨.error f, hstretch.bind ?_, rfl⟩
              dsimp only
              rw [hclosed, if_neg Bool.false_ne_true]
              exact hcopied.bind (hrest.bind (.done _))
          | ok found =>
              rw [hread] at hrest
              refine ⟨.ok (.loose found.1, found.2), hstretch.bind ?_, rfl⟩
              dsimp only
              rw [hclosed, if_neg Bool.false_ne_true]
              exact hcopied.bind (hrest.bind (.done _))

end Inspection

end JsonTree
