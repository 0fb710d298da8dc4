import JsonTree.Slice.Scan
import JsonTree.Proofs.Scan

/-!
# Inspection — what is looked at to find a token

An inspection is a computation that sees of a document nothing but its size and the bytes it looks
at, each by its index.  It may look at any index whatever; what keeps it inside the document are its
own tests against the size.  `Gives s p a` says that over the bytes of `s` it comes to the answer
`a`, and that every index it looks at on the way is below the size.  What lies in memory behind the
document then makes no difference (`Gives.answer?_eq`).

* `Gives.answer?_eq`, `Gives.lt_of_mem_indexes`: what is given does not depend on what lies behind
  the document, and only bytes of the document are looked at.
* `Gives.eq_of_bytes_eq`: what is given depends on the bytes only, not on where they lie.
* `gives_bytes`: so many bytes, when there are so many.
* `gives_skipBlank`, `gives_skipPlain`: searches, sixteen bytes at a time while there are so many.
-/

namespace JsonTree

/-- A computation that looks at bytes. -/
inductive Inspection (α : Type) where
  | done (a : α)
  /-- Looks at the byte at an index. -/
  | look (i : Nat) (next : UInt8 → Inspection α)
  /-- Gives up, because a part of the document is asked for that begins behind its end. -/
  | outOfRange

namespace Inspection

variable {α β : Type}

/-- One computation, and another behind it. -/
def bind : Inspection α → (α → Inspection β) → Inspection β
  | done a, f => f a
  | look i next, f => look i fun b => bind (next b) f
  | outOfRange, _ => outOfRange

instance : Monad Inspection where
  pure := done
  bind := bind

/-- What is answered over a memory, unless the computation gives up. -/
def answer? (memory : Nat → UInt8) : Inspection α → Option α
  | done a => some a
  | look i next => answer? memory (next (memory i))
  | outOfRange => none

/-- The indexes looked at over a memory, in order. -/
def indexes (memory : Nat → UInt8) : Inspection α → List Nat
  | done _ => []
  | look i next => i :: indexes memory (next (memory i))
  | outOfRange => []

/-- Over the bytes of the slice the computation comes to the answer, and looks at no others. -/
inductive Gives (s : Slice) : Inspection α → α → Prop where
  | done (a : α) : Gives s (done a) a
  | look {i : Nat} {next : UInt8 → Inspection α} {a : α} (h : i < s.size) :
      Gives s (next (s.byte i h)) a → Gives s (look i next) a

/-- The memory begins with the bytes of the slice; behind them there may be anything. -/
def Holds (memory : Nat → UInt8) (s : Slice) : Prop :=
  ∀ i (h : i < s.size), memory i = s.byte i h

/-- Below the size there is a byte. -/
theorem get?_of_lt {s : Slice} {i : Nat} (h : i < s.size) : s.get? i = some (s.byte i h) := by
  rw [Slice.get?, dif_pos h]

namespace Gives

variable {s : Slice}

/-- What one computation gives is handed to the next. -/
theorem bind {p : Inspection α} {f : α → Inspection β} {a : α} {b : β} (h : Gives s p a)
    (hf : Gives s (f a) b) : Gives s (p >>= f) b := by
  induction h with
  | done a => exact hf
  | look h _ ih => exact .look h (ih hf)

theorem map {p : Inspection α} {a : α} (h : Gives s p a) (f : α → β) :
    Gives s (p >>= fun a => Pure.pure (f a)) (f a) :=
  h.bind (.done _)

/-- One test for both. -/
theorem ite {c : Prop} [Decidable c] {p q : Inspection α} {a b : α} (h : c → Gives s p a)
    (h' : ¬ c → Gives s q b) : Gives s (if c then p else q) (if c then a else b) := by
  split
  · next hc => exact h hc
  · next hc => exact h' hc

/-- **What lies behind the slice in memory makes no difference** to the answer. -/
theorem answer?_eq {p : Inspection α} {a : α} (h : Gives s p a) {memory : Nat → UInt8}
    (hm : Holds memory s) : p.answer? memory = some a := by
  induction h with
  | done a => rfl
  | look h _ ih =>
      rw [answer?, hm _ h]
      exact ih

/-- **Every index looked at is below the size of the slice.** -/
theorem lt_of_mem_indexes {p : Inspection α} {a : α} (h : Gives s p a) {memory : Nat → UInt8}
    (hm : Holds memory s) : ∀ i ∈ p.indexes memory, i < s.size := by
  induction h with
  | done a => simp [indexes]
  | look h _ ih =>
      rw [indexes, hm _ h, List.forall_mem_cons]
      exact ⟨h, ih⟩

/-- Over other slices with the same bytes the answer is the same. -/
theorem eq_of_bytes_eq {s' : Slice} (hbytes : s'.bytes = s.bytes) {p : Inspection α} {a a' : α}
    (h : Gives s p a) (h' : Gives s' p a') : a' = a := by
  induction h with
  | done a =>
      cases h'
      rfl
  | @look i next a hi _ ih =>
      cases h' with
      | look hi' hnext =>
          have hbyte : s'.byte i hi' = s.byte i hi := by
            have hget : s'.get? i = s.get? i := by
              rw [Slice.get?_eq_getElem?, Slice.get?_eq_getElem?, hbytes]
            rw [get?_of_lt hi', get?_of_lt hi] at hget
            exact Option.some.inj hget
          rw [hbyte] at hnext
          exact ih hnext

end Gives

/-! ### Bytes -/

/-- The byte at an index. -/
def byte (i : Nat) : Inspection UInt8 :=
  look i done

/-- The byte at an index, if that is below the size. -/
def byte? (size i : Nat) : Inspection (Option UInt8) :=
  if i < size then do
    let b ← byte i
    return some b
  else return none

/-- So many bytes from an index on. -/
def bytes : (n i : Nat) → Inspection Bytes
  | 0, _ => return []
  | n + 1, i => do
    let b ← byte i
    let bs ← bytes n (i + 1)
    return b :: bs

variable {s : Slice}

/-- A byte may be looked at below the size. -/
theorem gives_byte {i : Nat} (h : i < s.size) : Gives s (byte i) (s.byte i h) :=
  .look h (.done _)

/-- A byte is looked at behind a test that there is one. -/
theorem gives_byte? (s : Slice) (i : Nat) : Gives s (byte? s.size i) (s.get? i) := by
  rw [byte?, Slice.get?]
  split
  · next h => exact (gives_byte h).map some
  · exact .done _

theorem gives_bytes {n i : Nat} (h : n ≤ s.size - i) : Gives s (bytes n i) (s.ahead i n) := by
  rw [Slice.ahead_eq_take]
  induction n generalizing i with
  | zero => exact .done _
  | succ n ih =>
      have hi : i < s.size := by omega
      rw [Slice.rest_eq_cons_of_get? (get?_of_lt hi), List.take_succ_cons]
      exact (gives_byte hi).bind ((ih (by omega)).map _)

/-! ### Searches -/

/-- The first index from `i` on whose byte passes the test, among so many. -/
def seek (size : Nat) (test : UInt8 → Bool) : (remaining i : Nat) → Inspection Nat
  | 0, i => return i
  | remaining + 1, i => do
    match ← byte? size i with
    | none => return i
    | some b => if test b then return i else seek size test remaining (i + 1)

/-- As `seek`, but so many blocks first, while sixteen bytes are left. -/
def seekBlocks (size : Nat) (marks : Bytes → Nat) (test : UInt8 → Bool) :
    (blocks i : Nat) → Inspection Nat
  | 0, i => seek size test (size - i) i
  | blocks + 1, i =>
    if i + Block.width ≤ size then do
      let block ← bytes Block.width i
      if marks block = 0 then seekBlocks size marks test blocks (i + Block.width)
      else return i + Block.lowest Block.width (marks block)
    else seek size test (size - i) i

/-- Where the blanks from an index on end. -/
def skipBlank (size i : Nat) : Inspection Nat :=
  seekBlocks size Block.notBlank (fun b => !Ascii.isBlank b) ((size - i) / Block.width) i

/-- Where the plain bytes of a string from an index on end. -/
def skipPlain (size i : Nat) : Inspection Nat :=
  seekBlocks size Block.notPlain (fun b => !Ascii.isPlain b) ((size - i) / Block.width) i

/-- A search by single bytes looks at each byte behind a test of its own. -/
theorem gives_seek (s : Slice) (test : UInt8 → Bool) (remaining i : Nat) :
    Gives s (seek s.size test remaining i) (s.seek test remaining i) := by
  induction remaining generalizing i with
  | zero => exact .done i
  | succ n ih =>
      rw [seek, Slice.seek]
      refine (gives_byte? s i).bind ?_
      cases s.get? i with
      | none => exact .done i
      | some b =>
          dsimp only
          split
          · exact .done i
          · exact ih (i + 1)

/-- A search by blocks looks at whole blocks, for which the size leaves room. -/
theorem gives_seekBlocks (s : Slice) (marks : Bytes → Nat) (test : UInt8 → Bool) (blocks i : Nat)
    (h : Block.width * blocks ≤ s.size - i) :
    Gives s (seekBlocks s.size marks test blocks i) (s.seekBlocks marks test blocks i) := by
  induction blocks generalizing i with
  | zero => exact gives_seek s test _ i
  | succ n ih =>
      rw [Nat.mul_succ] at h
      have hwidth : 0 < Block.width := by decide
      rw [seekBlocks, Slice.seekBlocks, if_pos (by omega)]
      refine (gives_bytes (by omega)).bind ?_
      split
      · exact ih _ (by omega)
      · exact .done _

/-- **Blanks are skipped without looking behind the end.** -/
theorem gives_skipBlank (s : Slice) (i : Nat) : Gives s (skipBlank s.size i) (s.skipBlank i) :=
  gives_seekBlocks s _ _ _ i (Nat.mul_div_le _ _)

/-- **So are plain bytes.** -/
theorem gives_skipPlain (s : Slice) (i : Nat) : Gives s (skipPlain s.size i) (s.skipPlain i) :=
  gives_seekBlocks s _ _ _ i (Nat.mul_div_le _ _)

end Inspection

end JsonTree
