import JsonTree.Bytes

/-!
# UTF-8

One encoded character at a time.  `decode?` reads the character at the front of a byte sequence
and refuses what is cut short, written longer than needed, a surrogate or beyond the last code
point; `encode` writes the bytes of a code point.
-/

namespace JsonTree.Utf8

/-- A code point that is a character: no surrogate, at most `0x10FFFF`. -/
def isScalar (n : Nat) : Bool :=
  n ≤ 0x10FFFF && !(0xD800 ≤ n && n ≤ 0xDFFF)

/-- What the first byte of a sequence announces. -/
structure Lead where
  /-- How many bytes the sequence has. -/
  length : Nat
  /-- The bits of the code point that the first byte holds. -/
  payload : Nat
  /-- The least code point that needs a sequence of this length. -/
  least : Nat
  deriving DecidableEq

/-- Reads a first byte; a continuation byte and `0xF8` and above begin nothing. -/
def lead? (b : UInt8) : Option Lead :=
  if b < 0x80 then some ⟨1, b.toNat, 0⟩
  else if b &&& 0xE0 == 0xC0 then some ⟨2, (b &&& 0x1F).toNat, 0x80⟩
  else if b &&& 0xF0 == 0xE0 then some ⟨3, (b &&& 0x0F).toNat, 0x800⟩
  else if b &&& 0xF8 == 0xF0 then some ⟨4, (b &&& 0x07).toNat, 0x10000⟩
  else none

/-- Joins the six bits of each of `count` continuation bytes to the bits so far. -/
def continuation? : (count : Nat) → (soFar : Nat) → Bytes → Option Nat
  | 0, soFar, _ => some soFar
  | _ + 1, _, [] => none
  | count + 1, soFar, b :: bs =>
    if b &&& 0xC0 == 0x80 then continuation? count (soFar <<< 6 ||| (b &&& 0x3F).toNat) bs
    else none

/-- The code point at the front and the number of bytes it takes. -/
def decode? (bs : Bytes) : Option (Nat × Nat) :=
  match bs with
  | [] => none
  | b :: bs =>
    match lead? b with
    | none => none
    | some lead =>
      match continuation? (lead.length - 1) lead.payload bs with
      | none => none
      | some n => if lead.least ≤ n && isScalar n then some (n, lead.length) else none

/-- The bytes of a code point. -/
def encode (n : Nat) : Bytes :=
  if n ≤ 0x7F then
    [n.toUInt8]
  else if n ≤ 0x7FF then
    [(0xC0 ||| n >>> 6).toUInt8, (0x80 ||| n &&& 0x3F).toUInt8]
  else if n ≤ 0xFFFF then
    [(0xE0 ||| n >>> 12).toUInt8, (0x80 ||| n >>> 6 &&& 0x3F).toUInt8,
      (0x80 ||| n &&& 0x3F).toUInt8]
  else
    [(0xF0 ||| n >>> 18).toUInt8, (0x80 ||| n >>> 12 &&& 0x3F).toUInt8,
      (0x80 ||| n >>> 6 &&& 0x3F).toUInt8, (0x80 ||| n &&& 0x3F).toUInt8]

/-- A sequence takes between one and four bytes. -/
theorem length_of_decode? {bs : Bytes} {n k : Nat} (h : decode? bs = some (n, k)) :
    1 ≤ k ∧ k ≤ 4 := by
  unfold decode? at h
  split at h
  · simp at h
  · split at h
    · simp at h
    · rename_i lead hlead
      have hk : 1 ≤ lead.length ∧ lead.length ≤ 4 := by
        revert hlead
        unfold lead?
        split
        · rintro ⟨⟩; simp
        split
        · rintro ⟨⟩; simp
        split
        · rintro ⟨⟩; simp
        split
        · rintro ⟨⟩; simp
        rintro ⟨⟩
      split at h
      · simp at h
      · split at h
        · simp only [Option.some.injEq, Prod.mk.injEq] at h
          omega
        · simp at h

end JsonTree.Utf8
