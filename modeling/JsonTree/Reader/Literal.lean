import JsonTree.Error
import JsonTree.Output
import JsonTree.Slice.Scan
import JsonTree.Text
import JsonTree.Utf8

/-!
# String literals

The characters of a string literal are well-formed UTF-8 without control bytes, and a backslash
begins an escape.  A literal without a backslash is read as a stretch of the document; the bytes of
one with a backslash are put together from the stretches between its escapes and what the escapes
stand for.  A failure names the leftmost offence.
-/

namespace JsonTree

/-- Why and where a literal cannot be read. -/
structure LiteralFailure where
  code : ErrorCode
  /-- What the error is reported at. -/
  offset : Nat
  /-- How far the literal has been read. -/
  stop : Nat
  deriving DecidableEq

namespace Literal

open Ascii

/-! ### Escapes -/

/-- The value of a hexadecimal digit in either case; the bit `0x20` takes a letter to lower case. -/
def hexValue? (b : UInt8) : Option Nat :=
  if isDigit b then some (digitValue b)
  else
    let lower := b ||| 0x20
    if 'a'.toUInt8 ≤ lower && lower ≤ 'f'.toUInt8 then some (lower.toNat - 'a'.toNat + 10) else none

/-- The value of four hexadecimal digits. -/
def hexFour? (s : Slice) (i : Nat) : Option Nat :=
  match s.ahead i 4 with
  | [a, b, c, d] => do
    let a ← hexValue? a
    let b ← hexValue? b
    let c ← hexValue? c
    let d ← hexValue? d
    return a <<< 12 ||| b <<< 8 ||| c <<< 4 ||| d
  | _ => none

/-- The first unit of a surrogate pair. -/
def isHighSurrogate (n : Nat) : Bool :=
  0xD800 ≤ n && n ≤ 0xDBFF

/-- The second unit of a surrogate pair. -/
def isLowSurrogate (n : Nat) : Bool :=
  0xDC00 ≤ n && n ≤ 0xDFFF

/-- The code point of a surrogate pair. -/
def joinSurrogates (high low : Nat) : Nat :=
  0x10000 + ((high - 0xD800) <<< 10 ||| (low - 0xDC00))

/-- What a one-letter escape stands for. -/
def simpleEscape? (b : UInt8) : Option UInt8 :=
  if b == quote || b == backslash || b == slash then some b
  else if b == 'b'.toUInt8 then some backspace
  else if b == 'f'.toUInt8 then some formFeed
  else if b == 'n'.toUInt8 then some newline
  else if b == 'r'.toUInt8 then some carriageReturn
  else if b == 't'.toUInt8 then some tab
  else none

/-- The bytes of the code point whose hexadecimal digits begin at `i`, and where its escape, or
the pair of escapes, ends. -/
def codePoint (s : Slice) (i : Nat) : Except LiteralFailure (Bytes × Nat) :=
  match hexFour? s i with
  | none => .error ⟨.invalidUnicodeEscape, i, i⟩
  | some n =>
    if isHighSurrogate n then
      if s.startsAt (i + 4) [backslash, 'u'.toUInt8] then
        match hexFour? s (i + 6) with
        | none => .error ⟨.invalidUnicodeEscape, i + 6, i + 6⟩
        | some low =>
          if isLowSurrogate low then .ok (Utf8.encode (joinSurrogates n low), i + 10)
          else .error ⟨.invalidSurrogate, i + 10, i + 10⟩
      else .error ⟨.invalidSurrogate, i + 4, i + 4⟩
    else if isLowSurrogate n then .error ⟨.invalidSurrogate, i + 4, i + 4⟩
    else .ok (Utf8.encode n, i + 4)

/-- The bytes that the escape whose backslash stands at `i` stands for, and where it ends. -/
def escape (s : Slice) (opened i : Nat) : Except LiteralFailure (Bytes × Nat) :=
  match s.get? (i + 1) with
  | none => .error ⟨.unexpectedEnd, opened, i + 1⟩
  | some b =>
    match simpleEscape? b with
    | some c => .ok ([c], i + 2)
    | none =>
      if b == 'u'.toUInt8 then codePoint s (i + 2)
      else .error ⟨.invalidEscape, i + 1, i + 2⟩

/-! ### Stretches between escapes -/

/-- Where the characters from `i` on that stand for themselves end: at a quote, at a backslash or
at the end of the slice. -/
def ordinaryEnd (s : Slice) : (remaining i : Nat) → Except LiteralFailure Nat
  | 0, i => .ok i
  | remaining + 1, i =>
    let j := s.skipPlain i
    match s.get? j with
    | none => .ok j
    | some b =>
      if b == quote || b == backslash then .ok j
      else if isControl b then .error ⟨.invalidString, j, j⟩
      else
        match Utf8.decode? (s.ahead j 4) with
        | none => .error ⟨.invalidUtf8, j, j⟩
        | some (_, length) => ordinaryEnd s remaining (j + length)

/-- A stretch without escapes. -/
structure Stretch where
  /-- Where it ends. -/
  stop : Nat
  /-- The byte there is the closing quote; otherwise it is a backslash. -/
  closed : Bool

/-- The stretch without escapes from `i` on, in the literal opened at `opened`. -/
def stretch (s : Slice) (opened i : Nat) : Except LiteralFailure Stretch :=
  match ordinaryEnd s (s.size - i) i with
  | .error f => .error f
  | .ok j =>
    match s.get? j with
    | none => .error ⟨.unexpectedEnd, opened, j⟩
    | some b => .ok ⟨j, b == quote⟩

/-! ### Whole literals -/

/-- Reads on from the backslash at `i` to the closing quote, appending to the bytes so far; answers
the bytes and where the literal ends. -/
def unescape (s : Slice) (opened : Nat) :
    (remaining i : Nat) → Output → Except LiteralFailure (Bytes × Nat)
  | 0, i, _ => .error ⟨.unexpectedEnd, opened, i⟩
  | remaining + 1, i, out =>
    match escape s opened i with
    | .error f => .error f
    | .ok (bs, j) =>
      match stretch s opened j with
      | .error f => .error f
      | .ok part =>
        let out := (out.append bs).append (s.between j part.stop).bytes
        if part.closed then .ok (out.bytes, part.stop + 1)
        else unescape s opened remaining part.stop out

/-- Reads the literal whose quote stands at `opened`; answers its characters and where it ends. -/
def read (s : Slice) (opened : Nat) : Except LiteralFailure (Characters × Nat) :=
  match stretch s opened (opened + 1) with
  | .error f => .error f
  | .ok part =>
    let plain := s.between (opened + 1) part.stop
    if part.closed then .ok (.slice plain, part.stop + 1)
    else
      match unescape s opened (s.size - part.stop) part.stop (.ofBytes plain.bytes) with
      | .error f => .error f
      | .ok (bs, stop) => .ok (.loose bs, stop)

/-! ### Reading goes forward -/

/-- Where reading stops, in success and in failure. -/
def stopOf {α : Type} (stop : α → Nat) : Except LiteralFailure α → Nat
  | .ok a => stop a
  | .error f => f.stop

/-- The scan for a code point never goes back. -/
theorem le_stopOf_codePoint (s : Slice) (i : Nat) : i ≤ stopOf (·.2) (codePoint s i) := by
  unfold codePoint
  repeat' split
  all_goals simp [stopOf]

theorem le_stopOf_escape (s : Slice) (opened i : Nat) :
    i ≤ stopOf (·.2) (escape s opened i) := by
  unfold escape
  repeat' split
  · simp [stopOf]
  · simp [stopOf]
  · exact Nat.le_trans (by omega) (le_stopOf_codePoint s (i + 2))
  · simp [stopOf]

/-- The scan over ordinary characters never goes back. -/
theorem le_stopOf_ordinaryEnd (s : Slice) (remaining i : Nat) :
    i ≤ stopOf id (ordinaryEnd s remaining i) := by
  induction remaining generalizing i with
  | zero => exact Nat.le_refl i
  | succ n ih =>
    have hj := s.le_skipPlain i
    unfold ordinaryEnd
    dsimp only
    repeat' split
    · exact hj
    · exact hj
    · exact hj
    · exact hj
    · exact Nat.le_trans (Nat.le_trans hj (Nat.le_add_right _ _)) (ih _)

/-- The scan of a stretch never goes back. -/
theorem le_stopOf_stretch (s : Slice) (opened i : Nat) :
    i ≤ stopOf (·.stop) (stretch s opened i) := by
  have h := le_stopOf_ordinaryEnd s (s.size - i) i
  unfold stretch
  split
  · next f hf => simpa [hf, stopOf] using h
  · next j hj =>
    have hij : i ≤ j := by simpa [hj, stopOf] using h
    split <;> exact hij

/-- The decoding loop never goes back. -/
theorem le_stopOf_unescape (s : Slice) (opened remaining i : Nat) (out : Output) :
    i ≤ stopOf (·.2) (unescape s opened remaining i out) := by
  induction remaining generalizing i out with
  | zero => exact Nat.le_refl i
  | succ n ih =>
    have he := le_stopOf_escape s opened i
    unfold unescape
    split
    · next f hf => simpa [hf, stopOf] using he
    · next bs j hj =>
      have hij : i ≤ j := by simpa [hj, stopOf] using he
      have hs := le_stopOf_stretch s opened j
      split
      · next f hf => exact Nat.le_trans hij (by simpa [hf, stopOf] using hs)
      · next part hp =>
        have hjp : j ≤ part.stop := by simpa [hp, stopOf] using hs
        dsimp only
        split
        · simp only [stopOf]; omega
        · exact Nat.le_trans (Nat.le_trans hij hjp) (ih _ _)

/-- A literal is read from its quote on. -/
theorem lt_stopOf_read (s : Slice) (opened : Nat) : opened < stopOf (·.2) (read s opened) := by
  have hs := le_stopOf_stretch s opened (opened + 1)
  unfold read
  split
  · next f hf => exact (by simpa [hf, stopOf] using hs : opened + 1 ≤ f.stop)
  · next part hp =>
    have hjp : opened + 1 ≤ part.stop := by simpa [hp, stopOf] using hs
    dsimp only
    split
    · simp only [stopOf]; omega
    · have hu := le_stopOf_unescape s opened (s.size - part.stop) part.stop
        (.ofBytes (s.between (opened + 1) part.stop).bytes)
      split
      · next f hf =>
        have : part.stop ≤ f.stop := by simpa [hf, stopOf] using hu
        simp only [stopOf]; omega
      · next bs stop hb =>
        have : part.stop ≤ stop := by simpa [hb, stopOf] using hu
        simp only [stopOf]; omega

end Literal

end JsonTree
