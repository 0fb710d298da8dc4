import JsonTree.Proofs.Inspection
import JsonTree.Proofs.Written
import Mathlib.Order.Bounds.Basic

/-!
# Search — where a scan stops

A scan looks at sixteen bytes at a time while there are so many, and at the bytes left over one by
one.  Where it stops can be told without blocks: it is the first index at which the slice ends or a
byte of the kind looked for is found (`Slice.stops`).

* `scan_step`: a scan is a loop that goes on while a whole block is left.
* `scan_eq_seek`: it stops where the search that goes byte by byte does.
* `isLeast_scan`: there is no earlier index at which to stop.
* `gives_scan`: however many blocks are tried first, no byte is looked at behind the slice.
* `mustEscape_iff_escaped_ne`: a byte has to be escaped exactly when it is not written as it is.
* `scans_stop_at_the_first`: all this of the three scans.
-/

namespace JsonTree

open Ascii

variable {s : Slice} {marks : Bytes → Nat} {test : UInt8 → Bool}

namespace Block

/-- A whole block is marked where its bytes pass the test. -/
def Marks (marks : Bytes → Nat) (test : UInt8 → Bool) : Prop :=
  ∀ block : Bytes, block.length = width → marks block = mask test block

/-- The mask for the end of a run of blanks. -/
theorem marks_notBlank : Marks notBlank fun b => !isBlank b :=
  fun _ => notBlank_eq

theorem marks_notPlain : Marks notPlain fun b => !isPlain b :=
  fun block _ => notPlain_eq block

theorem marks_mustEscape : Marks mustEscape Ascii.mustEscape :=
  fun block _ => mustEscape_eq block

end Block

namespace Slice

/-- The indexes from `i` on at which a search for a kind of byte can stop: there is such a byte, or
the slice ends. -/
def stops (s : Slice) (i : Nat) (kind : UInt8 → Prop) : Set Nat :=
  {j | i ≤ j ∧ (j = s.size ∨ ∃ b, s.get? j = some b ∧ kind b)}

/-! ### Block by block -/

/-- A scan goes on by whole blocks as long as one is left, and ends byte by byte. -/
theorem scan_step (s : Slice) (marks : Bytes → Nat) (test : UInt8 → Bool) (i : Nat) :
    s.scan marks test i =
      if i + Block.width ≤ s.size then
        if marks (s.ahead i Block.width) = 0 then s.scan marks test (i + Block.width)
        else i + Block.lowest Block.width (marks (s.ahead i Block.width))
      else s.seek test (s.size - i) i := by
  have hwidth : 0 < Block.width := by decide
  split
  · next hleft =>
      have hblocks : (s.size - i) / Block.width = (s.size - (i + Block.width)) / Block.width + 1 := by
        rw [Nat.sub_add_eq, Nat.div_eq_sub_div hwidth (by omega)]
      rw [scan, hblocks]
      rfl
  · next hleft =>
      have hnone : (s.size - i) / Block.width = 0 := Nat.div_eq_of_lt (by omega)
      rw [scan, hnone]
      rfl

/-- **A scan stops where the search byte by byte does.** -/
theorem scan_eq_seek (hm : Block.Marks marks test) (i : Nat) :
    s.scan marks test i = s.seek test (s.size - i) i := by
  rw [scan_eq s hm, seek_eq s test _ i (Nat.le_refl _)]

/-! ### The first index -/

/-- A stop is the end of the slice or a byte of the kind. -/
theorem add_mem_stops_iff {i n : Nat} {kind : UInt8 → Prop} (h : i ≤ s.size) :
    i + n ∈ s.stops i kind ↔
      n = (s.rest i).length ∨ ∃ b, (s.rest i)[n]? = some b ∧ kind b := by
  have hend : i + n = s.size ↔ n = (s.rest i).length := by
    rw [length_rest]
    omega
  have hget : s.get? (i + n) = (s.rest i)[n]? := by
    rw [get?_eq_getElem?, rest, List.getElem?_drop]
  simp [stops, hend, hget]

/-- What is found among the bytes from an index on is the first index at which to stop. -/
theorem isLeast_findIdx {i : Nat} {kind : UInt8 → Prop} (hk : ∀ b, test b = true ↔ kind b)
    (h : i ≤ s.size) : IsLeast (s.stops i kind) (i + (s.rest i).findIdx test) := by
  have hle : (s.rest i).findIdx test ≤ (s.rest i).length := List.findIdx_le_length
  constructor
  · rw [add_mem_stops_iff h]
    obtain hfound | hend := Nat.lt_or_eq_of_le hle
    · exact .inr ⟨_, List.getElem?_eq_getElem hfound, (hk _).mp List.findIdx_getElem⟩
    · exact .inl hend
  · intro j hj
    obtain ⟨n, rfl⟩ := Nat.exists_eq_add_of_le hj.1
    refine Nat.add_le_add_left ?_ i
    obtain rfl | ⟨b, hb, hkind⟩ := (add_mem_stops_iff h).mp hj
    · exact hle
    · obtain ⟨_, rfl⟩ := List.getElem?_eq_some_iff.mp hb
      -- a byte in front of the one found does not pass the test
      by_contra hlt
      have hfails := List.not_of_lt_findIdx (Nat.lt_of_not_le hlt)
      rw [(hk _).mpr hkind] at hfails
      cases hfails

/-- **A scan stops at the first index at which to stop.** -/
theorem isLeast_scan (hm : Block.Marks marks test) {i : Nat} {kind : UInt8 → Prop}
    (hk : ∀ b, test b = true ↔ kind b) (h : i ≤ s.size) :
    IsLeast (s.stops i kind) (s.scan marks test i) := by
  rw [scan_eq s hm]
  exact isLeast_findIdx hk h

end Slice

namespace Inspection

/-- Over any memory that begins with the slice the computation comes to the answer, and every index
it looks at is one of the slice. -/
def SeesOnly {α : Type} (s : Slice) (p : Inspection α) (a : α) : Prop :=
  ∀ memory, Holds memory s → p.answer? memory = some a ∧ ∀ k ∈ p.indexes memory, k < s.size

theorem Gives.seesOnly {α : Type} {p : Inspection α} {a : α} (h : Gives s p a) : SeesOnly s p a :=
  fun _ hm => ⟨h.answer?_eq hm, h.lt_of_mem_indexes hm⟩

/-- **However many blocks are tried first, a scan looks at bytes of the slice only**, and comes to
the same index: what keeps it inside is the test that a whole block is left. -/
theorem gives_scan (hm : Block.Marks marks test) (blocks i : Nat) :
    Gives s (seekBlocks s.size marks test blocks i) (s.scan marks test i) := by
  induction blocks generalizing i with
  | zero =>
      rw [Slice.scan_eq_seek hm]
      exact gives_seek s test _ i
  | succ blocks ih =>
      rw [seekBlocks]
      split
      · next hleft =>
          rw [Slice.scan_step, if_pos hleft]
          refine (gives_bytes (by omega)).bind ?_
          split
          · exact ih (i + Block.width)
          · exact .done _
      · next hleft =>
          rw [Slice.scan_step, if_neg hleft]
          exact gives_seek s test _ i

end Inspection

/-! ### What is written otherwise -/

namespace Write

theorem escaped_ne_of_mustEscape : ∀ b : UInt8, mustEscape b = true → escaped b ≠ [b] :=
  forall_byte (by decide)

/-- The bytes that have to be escaped are those that are not written as they are. -/
theorem mustEscape_iff_escaped_ne (b : UInt8) : mustEscape b = true ↔ escaped b ≠ [b] := by
  refine ⟨escaped_ne_of_mustEscape b, fun h => ?_⟩
  by_contra hbare
  exact h (escaped_of_not_mustEscape b (by simpa using hbare))

end Write

namespace Slice

open Inspection in
/-- **Scans stop at the first byte they look for.**  A search by blocks stops where the search that
goes byte by byte does, from any index in the slice.  Blanks end at the first byte that is no space,
tab, line feed or carriage return, plain bytes at the first quote, backslash, control byte or byte
beyond ASCII, or else at the end of the slice; and what is copied whole of a written string goes up
to the first quote, backslash or control byte, which is the first byte that is written otherwise
than it is.  However many blocks are tried first, no byte behind the slice is looked at, and
whatever is there in memory the answer is the same. -/
theorem scans_stop_at_the_first (s : Slice) {i : Nat} (h : i ≤ s.size) :
    (s.skipBlank i = s.seek (fun b => !isBlank b) (s.size - i) i ∧
      s.skipPlain i = s.seek (fun b => !isPlain b) (s.size - i) i ∧
      s.firstEscape = s.seek mustEscape s.size 0) ∧
    (IsLeast (s.stops i fun b => b ≠ space ∧ b ≠ tab ∧ b ≠ newline ∧ b ≠ carriageReturn)
        (s.skipBlank i) ∧
      IsLeast (s.stops i fun b => b = quote ∨ b = backslash ∨ b ≤ 0x1F ∨ 0x80 ≤ b)
        (s.skipPlain i) ∧
      IsLeast (s.stops 0 fun b => b = quote ∨ b = backslash ∨ b ≤ 0x1F) s.firstEscape ∧
      IsLeast (s.stops 0 fun b => Write.escaped b ≠ [b]) s.firstEscape) ∧
    ∀ blocks,
      SeesOnly s (Inspection.seekBlocks s.size Block.notBlank (fun b => !isBlank b) blocks i)
        (s.skipBlank i) ∧
      SeesOnly s (Inspection.seekBlocks s.size Block.notPlain (fun b => !isPlain b) blocks i)
        (s.skipPlain i) ∧
      SeesOnly s (Inspection.seekBlocks s.size Block.mustEscape Ascii.mustEscape blocks 0)
        s.firstEscape := by
  have hblank := Block.marks_notBlank
  have hplain := Block.marks_notPlain
  have hescape := Block.marks_mustEscape
  refine ⟨⟨scan_eq_seek hblank i, scan_eq_seek hplain i, scan_eq_seek hescape 0⟩,
    ⟨isLeast_scan hblank not_isBlank_iff h, isLeast_scan hplain not_isPlain_iff h,
      isLeast_scan hescape mustEscape_iff (Nat.zero_le _),
      isLeast_scan hescape Write.mustEscape_iff_escaped_ne (Nat.zero_le _)⟩, fun blocks => ?_⟩
  exact ⟨(gives_scan hblank blocks i).seesOnly, (gives_scan hplain blocks i).seesOnly,
    (gives_scan hescape blocks 0).seesOnly⟩

open Inspection in
/-- A block of blanks and two more bytes; the quote behind them in memory is no part of the slice.
-/
theorem scans_stop_at_the_first_quoteBehind :
    let s : Slice := .front 0 ⟨(List.replicate 17 space ++ [0x61, 0x80, quote]).toArray⟩ 19
    let memory : Nat → UInt8 := fun k =>
      if k < 17 then space else if k = 17 then 0x61 else if k = 18 then 0x80 else quote
    (1 ≤ s.size ∧ 17 ≤ s.size ∧ Holds memory s) ∧
      IsLeast (s.stops 1 fun b => b ≠ space ∧ b ≠ tab ∧ b ≠ newline ∧ b ≠ carriageReturn) 17 ∧
      IsLeast (s.stops 17 fun b => b = quote ∨ b = backslash ∨ b ≤ 0x1F ∨ 0x80 ≤ b) 18 ∧
      IsLeast (s.stops 0 fun b => Write.escaped b ≠ [b]) 19 ∧
      (Inspection.seekBlocks s.size Block.mustEscape mustEscape 9 0).answer? memory = some 19 := by
  intro s memory
  have hone : 1 ≤ s.size := by decide
  have hmore : 17 ≤ s.size := by decide
  have hm : Holds memory s := by
    have hall : ∀ k (h : k < s.size), memory k = s.byte k h := by decide
    exact hall
  have hblank : s.skipBlank 1 = 17 := by decide
  have hplain : s.skipPlain 17 = 18 := by decide
  have hescape : s.firstEscape = 19 := by decide
  obtain ⟨-, ⟨hfirst, -, -, hwritten⟩, hsees⟩ := scans_stop_at_the_first s hone
  obtain ⟨-, ⟨-, hbeyond, -, -⟩, -⟩ := scans_stop_at_the_first s hmore
  refine ⟨⟨hone, hmore, hm⟩, hblank ▸ hfirst, hplain ▸ hbeyond, hescape ▸ hwritten, ?_⟩
  rw [((hsees 9).2.2 memory hm).1, hescape]

end Slice

end JsonTree
