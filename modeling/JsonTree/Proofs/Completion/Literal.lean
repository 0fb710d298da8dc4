import JsonTree.Proofs.Literal

/-!
# Completion — string literals that were cut short

A literal that ends too early is one that some bytes complete (`Completes`): the quote at its end is
missing, or it ends in a lone backslash.  Digits of an escape or bytes of a character that are
missing are told otherwise.

* `Literal.completes_of_read`: where reading a literal finds the end of the document, some more
  bytes make it one.
-/

namespace JsonTree

open Ascii Bytes

/-- Some more bytes make the text one that is as the property says. -/
def Completes (p : Bytes → Prop) (bs : Bytes) : Prop :=
  ∃ tail, tail ≠ [] ∧ p (bs ++ tail)

namespace Completes

variable {p q : Bytes → Prop} {bs : Bytes}

/-- What is completed may have something in front of it. -/
theorem preceded (h : Completes p bs) {front : Bytes} (hq : ∀ text, p text → q (front ++ text)) :
    Completes q (front ++ bs) := by
  obtain ⟨tail, hne, hp⟩ := h
  refine ⟨tail, hne, ?_⟩
  rw [List.append_assoc]
  exact hq _ hp

/-- What is completed may be followed by something. -/
theorem followed (h : Completes p bs) (back : Bytes) (hq : ∀ text, p text → q (text ++ back)) :
    Completes q bs := by
  obtain ⟨tail, hne, hp⟩ := h
  refine ⟨tail ++ back, by simp [hne], ?_⟩
  rw [← List.append_assoc]
  exact hq _ hp

end Completes

namespace Literal

variable {s : Slice} {f : LiteralFailure} {opened i : Nat}

/-- The text of a literal behind its first quote. -/
def Body (bs : Bytes) : Prop :=
  ∃ ps : List Piece, (∀ p ∈ ps, p.Legal) ∧ bs = Pieces.text ps ++ [quote]

/-- More characters may stand in front. -/
theorem completes_behind {ps : List Piece} (hps : ∀ p ∈ ps, p.Legal) {bs : Bytes}
    (h : Completes Body bs) : Completes Body (Pieces.text ps ++ bs) := by
  refine h.preceded ?_
  rintro _ ⟨qs, hqs, rfl⟩
  refine ⟨ps ++ qs, fun p hp => (List.mem_append.mp hp).elim (hps p) (hqs p), ?_⟩
  simp

/-- Pieces may be followed by the quote. -/
theorem completes_pieces {ps : List Piece} (hps : ∀ p ∈ ps, p.Legal) :
    Completes Body (Pieces.text ps) :=
  ⟨[quote], List.cons_ne_nil _ _, ps, hps, rfl⟩

/-- A backslash may be followed by a letter and the quote. -/
theorem completes_backslash : Completes Body [backslash] := by
  have hletter : ('n'.toUInt8, newline) ∈ escapeLetters := by decide
  refine ⟨['n'.toUInt8, quote], List.cons_ne_nil _ _, [⟨[backslash, 'n'.toUInt8], [newline]⟩], ?_,
    rfl⟩
  intro p hp
  rw [List.mem_singleton.mp hp]
  exact .inr (.letter hletter)

/-! ### Where the end is found -/

/-- A character that is not well formed is told as such. -/
theorem code_of_ordinaryEnd {remaining : Nat} (h : ordinaryEnd s remaining i = .error f) :
    f.code ≠ .unexpectedEnd := by
  induction remaining generalizing i with
  | zero => cases h
  | succ remaining ih =>
      rw [ordinaryEnd] at h
      split at h
      · cases h
      split at h
      · cases h
      split at h
      · cases h
        exact ErrorCode.noConfusion
      split at h
      · cases h
        exact ErrorCode.noConfusion
      · exact ih h

/-- Digits that are no hexadecimal ones, or too few, are not told of as an early end. -/
theorem code_of_codePoint (h : codePoint s i = .error f) : f.code ≠ .unexpectedEnd := by
  rw [codePoint] at h
  repeat' split at h
  all_goals cases h
  all_goals exact ErrorCode.noConfusion

theorem completes_of_stretch (h : stretch s opened i = .error f) (hf : f.code = .unexpectedEnd) :
    f.offset = opened ∧ Completes Body (s.rest i) := by
  rw [stretch, ← ordinary] at h
  cases ho : ordinary s i with
  | error g =>
      rw [ho] at h
      cases h
      exact absurd hf (code_of_ordinaryEnd ho)
  | ok j =>
      rw [ho] at h
      dsimp only at h
      obtain ⟨ps, back, hps, hr, -, rfl⟩ := plainTo_of_ordinary ho
      cases hget : s.get? (i + (Pieces.text ps).length) with
      | some b =>
          rw [hget] at h
          cases h
      | none =>
          -- only characters that stand for themselves are left
          have hback : back = [] := by
            rw [← Slice.rest_add_length hr]
            exact Slice.rest_eq_nil_of_get? hget
          rw [hget] at h
          cases h
          rw [hr, hback, List.append_nil]
          exact ⟨rfl, completes_pieces fun p hp => .inl (hps p hp)⟩

theorem completes_of_escape (hi : s.get? i = some backslash) (h : escape s opened i = .error f)
    (hf : f.code = .unexpectedEnd) : f.offset = opened ∧ Completes Body (s.rest i) := by
  rw [escape] at h
  split at h
  · next hget =>
      cases h
      rw [Slice.rest_eq_cons_of_get? hi, Slice.rest_eq_nil_of_get? hget]
      exact ⟨rfl, completes_backslash⟩
  split at h
  · cases h
  split at h
  · exact absurd hf (code_of_codePoint h)
  · cases h
    cases hf

theorem completes_of_unescape {remaining : Nat} {out : Output} (hi : s.get? i = some backslash)
    (hn : s.size - i ≤ remaining) (h : unescape s opened remaining i out = .error f)
    (hf : f.code = .unexpectedEnd) : f.offset = opened ∧ Completes Body (s.rest i) := by
  induction remaining generalizing i out with
  | zero =>
      have hlt := Slice.lt_size_of_get? hi
      omega
  | succ remaining ih =>
      cases he : escape s opened i with
      | error g =>
          rw [unescape, he] at h
          cases h
          exact completes_of_escape hi he hf
      | ok found =>
          obtain ⟨text, back, hp, hr, hj⟩ := (escape_eq_ok_iff hi).mp he
          have behind : ∀ {bs}, Completes Body bs → Completes Body (text ++ bs) := by
            intro bs hbs
            simpa using completes_behind (legal_cons (.inr hp) (List.forall_mem_nil _)) hbs
          cases hs : stretch s opened found.2 with
          | error g =>
              rw [unescape, he] at h
              simp only [hs] at h
              cases h
              obtain ⟨ho, hrest⟩ := completes_of_stretch hs hf
              rw [hj, Slice.rest_add_length hr] at hrest
              rw [hr]
              exact ⟨ho, behind hrest⟩
          | ok part =>
              -- an escape and the characters behind it are gone over in one step
              obtain ⟨run, back', hrun, hr', -⟩ := stretch_eq_ok_iff.mp hs
              rw [hj, Slice.rest_add_length hr] at hr'
              rw [hr'] at hr
              rw [unescape_succ hi hp hrun hr] at h
              cases hclosed : part.closed with
              | true =>
                  rw [hclosed] at h
                  cases h
              | false =>
                  rw [hclosed] at h hr
                  obtain ⟨hget, hsize⟩ := next_escape hp hr hn
                  obtain ⟨ho, hrest⟩ := ih hget hsize h
                  rw [Slice.rest_add_length (Slice.rest_add_length hr)] at hrest
                  rw [hr]
                  exact ⟨ho, behind (completes_behind (fun p hmem => .inl (hrun p hmem)) hrest)⟩

/-- **A literal that is cut short can be completed**, and is told at its quote. -/
theorem completes_of_read (hi : s.get? i = some quote) (h : read s i = .error f)
    (hf : f.code = .unexpectedEnd) :
    f.offset = i ∧ Completes (fun bs => ∃ l : StringLiteral, bs = l.text) (s.rest i) := by
  have hbody : f.offset = i ∧ Completes Body (s.rest (i + 1)) := by
    cases hs : stretch s i (i + 1) with
    | error g =>
        rw [read, hs] at h
        cases h
        exact completes_of_stretch hs hf
    | ok part =>
        obtain ⟨run, back, hrun, hr, -⟩ := stretch_eq_ok_iff.mp hs
        cases hclosed : part.closed with
        | true =>
            rw [hclosed] at hr
            rw [read_plain hrun hr] at h
            cases h
        | false =>
            rw [hclosed] at hr
            rw [read_escape hrun hr] at h
            have hget : s.get? (i + 1 + (Pieces.text run).length) = some backslash := by
              rw [Slice.get?_eq_head?, Slice.rest_add_length hr]
              rfl
            cases hu : unescape s i (s.size - (i + 1 + (Pieces.text run).length))
                (i + 1 + (Pieces.text run).length) (.ofBytes (Pieces.text run)) with
            | ok found =>
                rw [hu] at h
                cases h
            | error g =>
                rw [hu] at h
                cases h
                obtain ⟨ho, hrest⟩ := completes_of_unescape hget (Nat.le_refl _) hu hf
                rw [Slice.rest_add_length hr] at hrest
                rw [hr]
                exact ⟨ho, completes_behind (fun p hmem => .inl (hrun p hmem)) hrest⟩
  rw [Slice.rest_eq_cons_of_get? hi]
  obtain ⟨ho, tail, hne, ps, hps, htext⟩ := hbody
  exact ⟨ho, tail, hne, ⟨ps, hps⟩, congrArg (quote :: ·) htext⟩

end Literal

end JsonTree
