import JsonTree.Slice

/-!
# Scanning a slice

A scan finds the first byte of some kind at or behind an index, or the end of the slice.  While
sixteen bytes are left it looks at them as one block: the block becomes a mask with one bit for
each byte, and the place of the lowest bit set is the place of the first hit.  The bytes that do
not fill a block are looked at one by one.  Three kinds of byte are looked for: the end of a run
of blanks, the end of a run of plain bytes inside a string literal, and the first byte that a
written string has to escape.
-/

namespace JsonTree

namespace Ascii

/-- Stands for itself inside a string literal and needs no closer look: an ASCII byte that is no
quote, no backslash and no control byte. -/
def isPlain (b : UInt8) : Bool :=
  !(b == quote || b == backslash || isControl b || 0x80 ≤ b)

/-- Cannot be written bare inside a string literal. -/
def mustEscape (b : UInt8) : Bool :=
  b == quote || b == backslash || isControl b

end Ascii

namespace Block

/-- How many bytes are looked at together. -/
def width : Nat := 16

/-- One bit for each byte of a block, the first byte lowest: whether it passes the test. -/
def mask (test : UInt8 → Bool) : Bytes → Nat
  | [] => 0
  | b :: bs => 2 * mask test bs + (test b).toNat

/-- The mask with every bit set. -/
def full : Nat := 0xFFFF

/-- The place of the lowest bit set among the first `lanes`, or `lanes` when none is. -/
def lowest : (lanes mask : Nat) → Nat
  | 0, _ => 0
  | lanes + 1, m => if m % 2 = 1 then 0 else lowest lanes (m / 2) + 1

/-- The difference of two bytes, zero where it would be negative. -/
def monus (a b : UInt8) : UInt8 :=
  if a ≤ b then 0 else a - b

/-- A control byte leaves nothing when the last control byte is taken away. -/
def control (block : Bytes) : Nat :=
  mask (fun b => monus b Ascii.lastControl == 0) block

/-- Marks the bytes of a block that are not blank. -/
def notBlank (block : Bytes) : Nat :=
  full ^^^ (mask (· == Ascii.space) block ||| mask (· == Ascii.newline) block |||
    (mask (· == Ascii.carriageReturn) block ||| mask (· == Ascii.tab) block))

/-- Marks the bytes of a block that a written string has to escape. -/
def mustEscape (block : Bytes) : Nat :=
  mask (· == Ascii.quote) block ||| mask (· == Ascii.backslash) block ||| control block

/-- Marks the bytes of a block that are not plain inside a string literal. -/
def notPlain (block : Bytes) : Nat :=
  mustEscape block ||| mask (0x80 ≤ ·) block

end Block

namespace Slice

/-- The first index from `i` on whose byte passes the test, looking at no more than the given
number of bytes. -/
def seek (s : Slice) (test : UInt8 → Bool) : (remaining i : Nat) → Nat
  | 0, i => i
  | remaining + 1, i =>
    match s.get? i with
    | none => i
    | some b => if test b then i else s.seek test remaining (i + 1)

/-- As `seek`, over the given number of whole blocks first. -/
def seekBlocks (s : Slice) (marks : Bytes → Nat) (test : UInt8 → Bool) : (blocks i : Nat) → Nat
  | 0, i => s.seek test (s.size - i) i
  | blocks + 1, i =>
    let m := marks (s.ahead i Block.width)
    if m = 0 then s.seekBlocks marks test blocks (i + Block.width)
    else i + Block.lowest Block.width m

/-- The first index from `i` on whose byte passes the test, or the size of the slice; `marks`
applies the test to the bytes of a whole block. -/
def scan (s : Slice) (marks : Bytes → Nat) (test : UInt8 → Bool) (i : Nat) : Nat :=
  s.seekBlocks marks test ((s.size - i) / Block.width) i

/-- Where the blanks from index `i` on end. -/
def skipBlank (s : Slice) (i : Nat) : Nat :=
  s.scan Block.notBlank (fun b => !Ascii.isBlank b) i

/-- Where the plain string bytes from index `i` on end. -/
def skipPlain (s : Slice) (i : Nat) : Nat :=
  s.scan Block.notPlain (fun b => !Ascii.isPlain b) i

/-- The first index whose byte a written string has to escape, or the size of the slice. -/
def firstEscape (s : Slice) : Nat :=
  s.scan Block.mustEscape Ascii.mustEscape 0

/-! ### Scans go forward -/

/-- A scan byte by byte never goes back. -/
theorem le_seek (s : Slice) (test : UInt8 → Bool) (remaining i : Nat) :
    i ≤ s.seek test remaining i := by
  induction remaining generalizing i with
  | zero => exact Nat.le_refl i
  | succ n ih =>
    unfold seek
    split
    · exact Nat.le_refl i
    · split
      · exact Nat.le_refl i
      · exact Nat.le_trans (Nat.le_succ i) (ih (i + 1))

/-- A scan block by block never goes back. -/
theorem le_seekBlocks (s : Slice) (marks : Bytes → Nat) (test : UInt8 → Bool) (blocks i : Nat) :
    i ≤ s.seekBlocks marks test blocks i := by
  induction blocks generalizing i with
  | zero => exact le_seek s test _ i
  | succ n ih =>
    unfold seekBlocks
    dsimp only
    split
    · exact Nat.le_trans (Nat.le_add_right i _) (ih _)
    · exact Nat.le_add_right i _

/-- A scan never goes back. -/
theorem le_scan (s : Slice) (marks : Bytes → Nat) (test : UInt8 → Bool) (i : Nat) :
    i ≤ s.scan marks test i :=
  le_seekBlocks s marks test _ i

theorem le_skipBlank (s : Slice) (i : Nat) : i ≤ s.skipBlank i :=
  le_scan s _ _ i

theorem le_skipPlain (s : Slice) (i : Nat) : i ≤ s.skipPlain i :=
  le_scan s _ _ i

end Slice

end JsonTree
