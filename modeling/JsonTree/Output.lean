import JsonTree.Bytes

/-!
# Output under construction

Text is written by appending to an output.  The bytes are kept last first, so that appending costs
no more than the bytes appended, and how many they are is kept beside them, so that what was written
since some moment can be looked at.  `bytes` gives the bytes in order; an append is an append of
lists (`bytes_append`).
-/

namespace JsonTree

/-- Bytes written so far. -/
structure Output where
  /-- The bytes, the last one first. -/
  backwards : Bytes
  /-- How many they are. -/
  size : Nat
  length_backwards : backwards.length = size

namespace Output

/-- Nothing written yet. -/
def empty : Output :=
  ⟨[], 0, rfl⟩

/-- The bytes written, in order. -/
def bytes (out : Output) : Bytes :=
  out.backwards.reverse

/-- Writes more bytes. -/
def append (out : Output) (bs : Bytes) : Output :=
  ⟨bs.reverseAux out.backwards, out.size + bs.length, by
    rw [List.reverseAux_eq, List.length_append, List.length_reverse, out.length_backwards,
      Nat.add_comm]⟩

/-- Writes one byte. -/
def push (out : Output) (b : UInt8) : Output :=
  ⟨b :: out.backwards, out.size + 1, by rw [List.length_cons, out.length_backwards]⟩

/-- An output that holds the given bytes already. -/
def ofBytes (bs : Bytes) : Output :=
  empty.append bs

/-- What was written since so many bytes were there. -/
def since (out : Output) (mark : Nat) : Bytes :=
  (out.backwards.take (out.size - mark)).reverse

@[simp] theorem bytes_empty : empty.bytes = [] := rfl

@[simp] theorem bytes_append (out : Output) (bs : Bytes) :
    (out.append bs).bytes = out.bytes ++ bs := by
  simp [append, bytes, List.reverseAux_eq]

@[simp] theorem bytes_push (out : Output) (b : UInt8) : (out.push b).bytes = out.bytes ++ [b] := by
  simp [push, bytes]

@[simp] theorem bytes_ofBytes (bs : Bytes) : (ofBytes bs).bytes = bs := by
  simp [ofBytes]

@[simp] theorem since_append (out : Output) (bs : Bytes) : (out.append bs).since out.size = bs := by
  simp [append, since, List.reverseAux_eq]

end Output

end JsonTree
