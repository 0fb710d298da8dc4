import JsonTree.Output
import JsonTree.Slice.Scan

/-!
# Written strings

A string is written between quotes.  A quote, a backslash and the control bytes are escaped, with a
letter where there is one and with four hexadecimal digits otherwise; every other byte is written
as it is, whether or not it belongs to a character (`escaped`).

Bytes that need no escape are copied in runs.  What stands in front of the first byte to be escaped
is found by a scan; from there on the bytes are looked at one by one, and a run is copied when it is
ended by a byte to be escaped or by the end of the string.
-/

namespace JsonTree

namespace Write

open Ascii

/-- A hexadecimal digit in upper case. -/
def hexDigit (n : Nat) : UInt8 :=
  if n < 10 then UInt8.ofNat (0x30 + n) else UInt8.ofNat (0x37 + n)

/-- The letter of a byte that has an escape of one letter. -/
def escapeLetter? (b : UInt8) : Option UInt8 :=
  if b == quote || b == backslash then some b
  else if b == backspace then some 'b'.toUInt8
  else if b == formFeed then some 'f'.toUInt8
  else if b == newline then some 'n'.toUInt8
  else if b == carriageReturn then some 'r'.toUInt8
  else if b == tab then some 't'.toUInt8
  else none

/-- How a byte of a string is written. -/
def escaped (b : UInt8) : Bytes :=
  match escapeLetter? b with
  | some letter => [backslash, letter]
  | none =>
    if isControl b then
      Bytes.ofString "\\u00" ++ [hexDigit (b.toNat / 16), hexDigit (b.toNat % 16)]
    else [b]

/-- Copies the run from `chunk` up to `i`, if there is one. -/
def flush (s : Slice) (chunk i : Nat) (out : Output) : Output :=
  if chunk < i then out.append (s.between chunk i).bytes else out

/-- Writes the bytes from `i` on; the run from `chunk` up to there is still to be copied. -/
def runs (s : Slice) : (remaining i chunk : Nat) → Output → Output
  | 0, i, chunk, out => flush s chunk i out
  | remaining + 1, i, chunk, out =>
    match s.get? i with
    | none => flush s chunk i out
    | some b =>
      match escapeLetter? b with
      | some letter =>
        runs s remaining (i + 1) (i + 1) ((flush s chunk i out).append [backslash, letter])
      | none =>
        if isControl b then
          let out := (flush s chunk i out).append (Bytes.ofString "\\u00")
          runs s remaining (i + 1) (i + 1)
            ((out.push (hexDigit (b.toNat / 16))).push (hexDigit (b.toNat % 16)))
        else runs s remaining (i + 1) chunk out

/-- A string as it is written. -/
def quoted (bs : Bytes) : Bytes :=
  let s := Slice.ofBytes 0 bs
  let first := s.firstEscape
  let out := Output.empty.push quote
  if first = s.size then ((out.append bs).push quote).bytes
  else ((runs s (s.size - first) first first (flush s 0 first out)).push quote).bytes

end Write

end JsonTree
