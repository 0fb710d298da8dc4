import JsonTree.Bytes

/-!
# Slices of a buffer

A slice is a stretch of a buffer in memory.  The memory may go on behind the slice; a read is
offered only below the slice's own size, so what lies behind has no say in any answer
(`get?_eq_getElem?`).  A slice also knows where it lies: `covers` compares places, never contents,
which is how a string is known to be a part of the document it came from.
-/

namespace JsonTree

/-- A stretch of a numbered buffer. -/
structure Slice where
  /-- Which buffer this is a stretch of; two buffers of equal contents have different numbers. -/
  buffer : Nat
  /-- The whole memory of the buffer. -/
  memory : ByteArray
  /-- Where the slice begins in memory. -/
  start : Nat
  /-- How many bytes the slice has. -/
  size : Nat
  /-- The slice lies inside the memory. -/
  inside : start + size ≤ memory.size

namespace Slice

/-- A whole buffer. -/
def ofMemory (buffer : Nat) (memory : ByteArray) : Slice :=
  ⟨buffer, memory, 0, memory.size, by omega⟩

/-- A buffer that holds the given bytes and no more. -/
def ofBytes (buffer : Nat) (bs : Bytes) : Slice :=
  ofMemory buffer ⟨bs.toArray⟩

/-- The first `size` bytes of a buffer, all of it when there are fewer. -/
def front (buffer : Nat) (memory : ByteArray) (size : Nat) : Slice :=
  ⟨buffer, memory, 0, min size memory.size, by omega⟩

/-- The byte at an index below the size. -/
@[inline] def byte (s : Slice) (i : Nat) (h : i < s.size) : UInt8 :=
  have : s.start + i < s.memory.size := by
    have := s.inside
    omega
  s.memory[s.start + i]

/-- The byte at an index, if the index is below the size. -/
@[inline] def get? (s : Slice) (i : Nat) : Option UInt8 :=
  if h : i < s.size then some (s.byte i h) else none

/-- The bytes of the slice, in order. -/
def bytes (s : Slice) : Bytes :=
  List.ofFn fun i : Fin s.size => s.byte i.val i.isLt

/-- The bytes from index `i` on. -/
def rest (s : Slice) (i : Nat) : Bytes :=
  s.bytes.drop i

/-- The part of `n` bytes from index `i` on, cut where the slice ends. -/
def sub (s : Slice) (i n : Nat) : Slice where
  buffer := s.buffer
  memory := s.memory
  start := s.start + min i s.size
  size := min n (s.size - i)
  inside := by have := s.inside; omega

/-- The part from index `i` up to index `j`. -/
def between (s : Slice) (i j : Nat) : Slice :=
  s.sub i (j - i)

/-- At most `n` bytes from index `i` on. -/
def ahead (s : Slice) (i n : Nat) : Bytes :=
  (s.sub i n).bytes

/-- The expected bytes stand at index `i`. -/
def startsAt (s : Slice) (i : Nat) (expected : Bytes) : Bool :=
  s.ahead i expected.length == expected

/-- The inner slice is a stretch of the outer one: same buffer, and no end sticks out. -/
def covers (outer inner : Slice) : Bool :=
  outer.buffer == inner.buffer && outer.start ≤ inner.start &&
    inner.start + inner.size ≤ outer.start + outer.size

/-! ### What a read sees -/

@[simp] theorem length_bytes (s : Slice) : s.bytes.length = s.size := by
  simp [bytes]

/-- A read sees the slice's bytes and nothing else of the memory. -/
theorem get?_eq_getElem? (s : Slice) (i : Nat) : s.get? i = s.bytes[i]? := by
  by_cases h : i < s.size <;> simp [get?, bytes, h]

/-- There is no byte exactly from the end on. -/
theorem get?_eq_none_iff (s : Slice) (i : Nat) : s.get? i = none ↔ s.size ≤ i := by
  simp [get?]

/-- Only inside the slice there is a byte. -/
theorem lt_size_of_get? {s : Slice} {i : Nat} {b : UInt8} (h : s.get? i = some b) : i < s.size := by
  by_cases hi : i < s.size
  · exact hi
  · simp [get?, hi] at h

theorem rest_eq_nil_of_get? {s : Slice} {i : Nat} (h : s.get? i = none) : s.rest i = [] := by
  simpa [rest] using (get?_eq_none_iff s i).1 h

/-- What is left at a byte is the byte and what is left behind it. -/
theorem rest_eq_cons_of_get? {s : Slice} {i : Nat} {b : UInt8} (h : s.get? i = some b) :
    s.rest i = b :: s.rest (i + 1) := by
  rw [get?_eq_getElem?] at h
  obtain ⟨hi, rfl⟩ := List.getElem?_eq_some_iff.1 h
  exact List.drop_eq_getElem_cons hi

/-- A part of a slice has the bytes between its two ends. -/
theorem bytes_sub (s : Slice) (i n : Nat) : (s.sub i n).bytes = (s.bytes.drop i).take n := by
  apply List.ext_getElem?
  intro k
  rw [← get?_eq_getElem?]
  by_cases hk : k < min n (s.size - i)
  · have hi : min i s.size = i := by omega
    simp [get?, sub, bytes, byte, hk, hi, Nat.add_assoc]
  · simp only [get?, sub, hk, ↓reduceDIte, List.getElem?_take, List.getElem?_drop]
    split
    · rw [← get?_eq_getElem?, eq_comm, get?_eq_none_iff]; omega
    · rfl

end Slice

end JsonTree
