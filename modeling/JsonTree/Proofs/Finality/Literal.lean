import JsonTree.Proofs.Advance

/-!
# Finality — string literals in a longer document

Some errors are final: no further bytes undo them (`ErrorCode.isFinal`).  A literal may go wrong at
a control byte or at a letter that may not follow a backslash, and then it goes wrong there as well
when the document goes on behind its end.  Coming to the end of the document is no such error, and
neither is a character, or a number in hexadecimal digits, that may have been cut short there.

* `Slice.BeginsWith`: a slice that goes on behind the end of another, and what is found in both.
* `Literal.read_error`: a literal that goes wrong for good goes wrong in both at the same place.
-/

namespace JsonTree

open Ascii Bytes

/-- More bytes do not undo an error with this cause. -/
def ErrorCode.isFinal : ErrorCode → Bool
  | invalidValue | invalidString | invalidEscape | expectedColon | expectedKey
  | expectedCommaOrEnd | trailingCharacters | nestingTooDeep => true
  | _ => false

/-! ### Slices that go on -/

namespace Slice

/-- The slice begins with the bytes of the other one. -/
def BeginsWith (t s : Slice) : Prop :=
  ∃ tail, t.bytes = s.bytes ++ tail

namespace BeginsWith

variable {s t : Slice}

/-- What is left from an index on is longer by the appended bytes. -/
theorem rest (h : t.BeginsWith s) {i : Nat} (hi : i ≤ s.size) :
    ∃ tail, t.rest i = s.rest i ++ tail := by
  obtain ⟨tail, hb⟩ := h
  refine ⟨tail, ?_⟩
  rw [Slice.rest, hb, List.drop_append_of_le_length (by rwa [length_bytes])]
  rfl

theorem size_le (h : t.BeginsWith s) : s.size ≤ t.size := by
  obtain ⟨tail, hb⟩ := h
  rw [← length_bytes, ← length_bytes, hb, List.length_append]
  exact Nat.le_add_right _ _

/-- The bytes of the shorter document stand at the same places in the longer one. -/
theorem get? (h : t.BeginsWith s) {i : Nat} {b : UInt8} (hb : s.get? i = some b) :
    t.get? i = some b := by
  obtain ⟨tail, htail⟩ := h.rest (Nat.le_of_lt (lt_size_of_get? hb))
  rw [get?_eq_head?, htail, rest_eq_cons_of_get? hb]
  rfl

/-- A window that lies in the shorter document is the same in the longer one. -/
theorem ahead (h : t.BeginsWith s) {i n : Nat} (hi : i + n ≤ s.size) :
    t.ahead i n = s.ahead i n := by
  obtain ⟨tail, htail⟩ := h.rest (Nat.le_of_add_right_le hi)
  rw [ahead_eq_take, ahead_eq_take, htail, List.take_append_of_le_length]
  rw [length_rest]
  omega

/-- A word that would end in the shorter document stands there in both or in neither. -/
theorem startsAt (h : t.BeginsWith s) {i : Nat} {expected : Bytes}
    (hi : i + expected.length ≤ s.size) : t.startsAt i expected = s.startsAt i expected := by
  rw [Slice.startsAt, Slice.startsAt, h.ahead hi]

/-- Blanks end where a byte follows them. -/
theorem skipBlank (h : t.BeginsWith s) {i : Nat} {b : UInt8}
    (hb : s.get? (s.skipBlank i) = some b) : t.skipBlank i = s.skipBlank i := by
  have hlt := lt_size_of_get? hb
  have hi : i ≤ s.size := Nat.le_trans (s.le_skipBlank i) (Nat.le_of_lt hlt)
  obtain ⟨tail, htail⟩ := h.rest hi
  rw [skipBlank_eq] at hlt
  rw [skipBlank_eq, skipBlank_eq, htail, List.takeWhile_append, if_neg]
  rw [length_rest]
  omega

end BeginsWith

end Slice

/-! ### Literals -/

namespace Literal

variable {s t : Slice} {f : LiteralFailure}

/-- A control byte is found in both slices. -/
theorem ordinary_error (h : t.BeginsWith s) {i : Nat} (ho : ordinary s i = .error f)
    (hf : f.code.isFinal = true) : ordinary t i = .error f ∧ f.offset ≤ s.size := by
  -- on the bytes that are left in the shorter slice: both scans go on behind each character
  induction hn : s.size - i using Nat.strong_induction_on generalizing i with
  | h n ih =>
      cases hb : s.get? i with
      | none =>
          rw [ordinary_none hb] at ho
          cases ho
      | some b =>
          have hb' := h.get? hb
          have hlt := Slice.lt_size_of_get? hb
          cases hp : isPlain b with
          | true =>
              rw [ordinary_plain hb hp] at ho
              rw [ordinary_plain hb' hp]
              exact ih _ (by omega) ho rfl
          | false =>
              rw [ordinary_some hb hp] at ho
              rw [ordinary_some hb' hp]
              by_cases hstop : (b == quote || b == backslash) = true
              · rw [if_pos hstop] at ho
                cases ho
              rw [if_neg hstop] at ho ⊢
              by_cases hcontrol : isControl b = true
              · rw [if_pos hcontrol] at ho ⊢
                cases ho
                exact ⟨rfl, Nat.le_of_lt hlt⟩
              rw [if_neg hcontrol] at ho ⊢
              cases hd : Utf8.decode? (s.ahead i 4) with
              | none =>
                  rw [hd] at ho
                  cases ho
                  cases hf
              | some found =>
                  obtain ⟨m, k⟩ := found
                  obtain ⟨c, back, hr, rfl, hc⟩ := decode?_ahead_eq_some_iff.mp hd
                  obtain ⟨tail, htail⟩ := h.rest (Nat.le_of_lt hlt)
                  rw [hr, List.append_assoc] at htail
                  have hpos := hc.length_pos
                  rw [hd] at ho
                  rw [decode?_ahead_eq_some_iff.mpr ⟨c, _, htail, rfl, hc⟩]
                  exact ih _ (by omega) ho rfl

/-- What is wrong with a stretch for good is wrong with it in the longer document. -/
theorem stretch_error (h : t.BeginsWith s) {opened i : Nat} (hs : stretch s opened i = .error f)
    (hf : f.code.isFinal = true) : stretch t opened i = .error f ∧ f.offset ≤ s.size := by
  rw [stretch, ← ordinary] at hs
  rw [stretch, ← ordinary]
  cases ho : ordinary s i with
  | error g =>
      rw [ho] at hs
      cases hs
      obtain ⟨heq, hinside⟩ := ordinary_error h ho hf
      rw [heq]
      exact ⟨rfl, hinside⟩
  | ok j =>
      rw [ho] at hs
      dsimp only at hs
      split at hs
      · cases hs
        cases hf
      · cases hs

/-- What is wrong with hexadecimal digits may be that they are cut short. -/
theorem not_isFinal_of_codePoint {i : Nat} (h : codePoint s i = .error f) :
    f.code.isFinal = false := by
  rw [codePoint] at h
  repeat' split at h
  all_goals cases h
  all_goals rfl

/-- A letter that may not follow a backslash is found in both slices. -/
theorem escape_error (h : t.BeginsWith s) {opened i : Nat} (he : escape s opened i = .error f)
    (hf : f.code.isFinal = true) : escape t opened i = .error f ∧ f.offset ≤ s.size := by
  rw [escape] at he
  split at he
  · cases he
    cases hf
  next b hb =>
  split at he
  · cases he
  next hsimple =>
  split at he
  · rw [not_isFinal_of_codePoint he] at hf
    cases hf
  next hu =>
  cases he
  rw [escape, h.get? hb]
  dsimp only
  rw [hsimple]
  dsimp only
  rw [if_neg hu]
  exact ⟨rfl, Nat.le_of_lt (Slice.lt_size_of_get? hb)⟩

/-- What is wrong behind an escape for good is wrong in the longer document. -/
theorem unescape_error (h : t.BeginsWith s) {opened m n i : Nat} {out : Output}
    (hi : s.get? i = some backslash) (hmn : m ≤ n) (hu : unescape s opened m i out = .error f)
    (hf : f.code.isFinal = true) : unescape t opened n i out = .error f ∧ f.offset ≤ s.size := by
  induction m generalizing n i out with
  | zero =>
      cases hu
      cases hf
  | succ m ih =>
      obtain ⟨n, rfl⟩ : ∃ n', n = n' + 1 := ⟨n - 1, by omega⟩
      cases he : escape s opened i with
      | error g =>
          rw [unescape, he] at hu
          cases hu
          obtain ⟨heq, hinside⟩ := escape_error h he hf
          rw [unescape, heq]
          exact ⟨rfl, hinside⟩
      | ok found =>
          obtain ⟨text, back, hp, hr, hj⟩ := (escape_eq_ok_iff hi).mp he
          obtain ⟨tail, htail⟩ := h.rest (Nat.le_of_lt (Slice.lt_size_of_get? hi))
          cases hs : stretch s opened found.2 with
          | error g =>
              rw [unescape, he] at hu
              simp only [hs] at hu
              cases hu
              obtain ⟨heq, hinside⟩ := stretch_error h hs hf
              have he' : escape t opened i = .ok found :=
                (escape_eq_ok_iff (h.get? hi)).mpr
                  ⟨text, back ++ tail, hp, by rw [htail, hr, List.append_assoc], hj⟩
              rw [unescape, he']
              simp only [heq]
              exact ⟨trivial, hinside⟩
          | ok part =>
              -- an escape and the characters behind it are gone over in one step, here and there
              obtain ⟨run, back', hrun, hr', -⟩ := stretch_eq_ok_iff.mp hs
              rw [hj, Slice.rest_add_length hr] at hr'
              rw [hr'] at hr
              rw [hr, List.append_assoc, List.append_assoc, List.cons_append] at htail
              rw [unescape_succ hi hp hrun hr] at hu
              rw [unescape_succ (h.get? hi) hp hrun htail]
              cases hclosed : part.closed with
              | true =>
                  rw [hclosed] at hu
                  cases hu
              | false =>
                  rw [hclosed] at hu hr
                  refine ih ?_ (by omega) hu
                  rw [Slice.get?_eq_head?, Slice.rest_add_length (Slice.rest_add_length hr)]
                  rfl

/-- **A literal that goes wrong for good goes wrong in the same way when more bytes follow.** -/
theorem read_error (h : t.BeginsWith s) {i : Nat} (hread : read s i = .error f)
    (hf : f.code.isFinal = true) : read t i = .error f ∧ f.offset ≤ s.size := by
  cases hs : stretch s i (i + 1) with
  | error g =>
      rw [read, hs] at hread
      cases hread
      obtain ⟨heq, hinside⟩ := stretch_error h hs hf
      rw [read, heq]
      exact ⟨rfl, hinside⟩
  | ok part =>
      obtain ⟨run, back, hrun, hr, hstop⟩ := stretch_eq_ok_iff.mp hs
      cases hclosed : part.closed with
      | true =>
          rw [hclosed] at hr
          rw [read_plain hrun hr] at hread
          cases hread
      | false =>
          rw [hclosed] at hr
          have hi : i + 1 ≤ s.size := by
            have := stop_lt_of_stretch hs
            omega
          obtain ⟨tail, htail⟩ := h.rest hi
          rw [hr, List.append_assoc, List.cons_append] at htail
          rw [read_escape hrun hr] at hread
          rw [read_escape hrun htail]
          have hget : s.get? (i + 1 + (Pieces.text run).length) = some backslash := by
            rw [Slice.get?_eq_head?, Slice.rest_add_length hr]
            rfl
          have hsize := h.size_le
          cases hu : unescape s i (s.size - (i + 1 + (Pieces.text run).length))
              (i + 1 + (Pieces.text run).length) (.ofBytes (Pieces.text run)) with
          | ok found =>
              rw [hu] at hread
              cases hread
          | error g =>
              rw [hu] at hread
              cases hread
              obtain ⟨heq, hinside⟩ := unescape_error
                (n := t.size - (i + 1 + (Pieces.text run).length)) h hget (by omega) hu hf
              rw [heq]
              exact ⟨rfl, hinside⟩

end Literal

end JsonTree
