import JsonTree.Proofs.Piece

/-!
# String literals — how one is read

A literal is read in stretches that have no escapes, and between them escapes.  A stretch is scanned
a block at a time and decoded where the scan stops; it consists of plain pieces all the same.

* `ordinary_eq_ok_iff`: a stretch is read exactly when plain pieces stand there.
* `unescape_eq_ok_iff`: from the first escape on, the pieces are read up to the closing quote.
* `read_eq_ok_iff`: a literal is read exactly when one of the grammar stands there.  The characters
  are the bytes its pieces stand for; they are the document's own bytes when no piece is an escape.
-/

namespace JsonTree

open Ascii Bytes

namespace Literal

/-! ### Stretches without escapes -/

/-- The bytes that stand for themselves are those of ASCII but the controls, the quote and the
backslash. -/
theorem isPlain_iff : ∀ b : UInt8, isPlain b = true ↔
    b ≤ 0x7F ∧ 0x20 ≤ b.toNat ∧ b.toNat ≠ 0x22 ∧ b.toNat ≠ 0x5C :=
  forall_byte (by decide)

/-- Bytes beyond ASCII encode a scalar beyond ASCII. -/
theorem le_of_encodes {n : Nat} {b : UInt8} {rest : Bytes} (h : Utf8.Encodes n (b :: rest))
    (hb : 0x80 ≤ b) : 0x80 ≤ n := by
  rcases h.ascii_or_beyond with ⟨b', hb', hc, -⟩ | hn
  · obtain ⟨rfl, -⟩ := List.cons.inj hc
    exact absurd (UInt8.le_trans hb hb') (by decide)
  · exact hn

/-- A plain character is a plain byte or a sequence that begins with a byte beyond ASCII. -/
theorem plain_cases {p : Piece} (h : p.Plain) :
    (∃ b, p = ⟨[b], [b]⟩ ∧ isPlain b = true) ∨
      ∃ b rest n, p = ⟨b :: rest, b :: rest⟩ ∧ 0x80 ≤ b ∧ Utf8.Encodes n (b :: rest) := by
  obtain @⟨n, c, he, hn, hq, hs⟩ := h
  rcases he.ascii_or_beyond with ⟨b, hb, rfl, rfl⟩ | hbeyond
  · exact .inl ⟨b, rfl, (isPlain_iff b).mpr ⟨hb, hn, hq, hs⟩⟩
  · cases c with
    | nil => exact absurd he.length_pos (Nat.lt_irrefl 0)
    | cons b rest =>
        exact .inr ⟨b, rest, n, rfl, he.beyond_ascii hbeyond b List.mem_cons_self, he⟩

/-- A plain byte is a character by itself. -/
theorem plain_of_isPlain {b : UInt8} (h : isPlain b = true) : Piece.Plain ⟨[b], [b]⟩ := by
  obtain ⟨ha, hn, hq, hs⟩ := (isPlain_iff b).mp h
  exact ⟨.one ha, hn, hq, hs⟩

/-- A sequence that begins with a byte beyond ASCII is a character by itself. -/
theorem plain_of_encodes {n : Nat} {b : UInt8} {rest : Bytes}
    (h : Utf8.Encodes n (b :: rest)) (hb : 0x80 ≤ b) : Piece.Plain ⟨b :: rest, b :: rest⟩ := by
  have := le_of_encodes h hb
  exact ⟨h, by omega, by omega, by omega⟩

/-- Steps enough for the bytes that are left are enough, however many they are. -/
theorem ordinaryEnd_eq {s : Slice} {m n i : Nat} (hm : s.size - i ≤ m) (hn : s.size - i ≤ n) :
    ordinaryEnd s m i = ordinaryEnd s n i := by
  -- at the end of the slice no steps are needed
  have hend : ∀ {n i}, s.size ≤ i → ordinaryEnd s n i = .ok i := by
    intro n i hi
    cases n with
    | zero => rfl
    | succ n =>
        have hr : s.rest i = [] := by
          rw [← List.length_eq_zero_iff, Slice.length_rest]
          omega
        have hj : s.skipPlain i = i := by rw [Slice.skipPlain_eq, hr]; rfl
        rw [ordinaryEnd, hj, (Slice.get?_eq_none_iff s i).mpr hi]
  induction m generalizing n i with
  | zero => rw [hend (by omega), hend (by omega)]
  | succ m ih =>
      cases n with
      | zero => rw [hend (by omega), hend (by omega)]
      | succ n =>
          have hj := s.le_skipPlain i
          rw [ordinaryEnd, ordinaryEnd]
          split
          · rfl
          · next b hb =>
              have hlt := Slice.lt_size_of_get? hb
              split
              · rfl
              split
              · rfl
              split
              · rfl
              · next length hd =>
                  have hk := Utf8.length_of_decode? hd
                  exact ih (by omega) (by omega)

/-- Where the characters from an index on that stand for themselves end. -/
def ordinary (s : Slice) (i : Nat) : Except LiteralFailure Nat :=
  ordinaryEnd s (s.size - i) i

/-- One step more than there are bytes left changes nothing. -/
theorem ordinary_eq (s : Slice) (i : Nat) : ordinary s i = ordinaryEnd s (s.size - i + 1) i :=
  ordinaryEnd_eq (Nat.le_refl _) (Nat.le_succ _)

/-- At the end of the slice the ordinary characters end. -/
theorem ordinary_none {s : Slice} {i : Nat} (h : s.get? i = none) : ordinary s i = .ok i := by
  have hj : s.skipPlain i = i := by rw [Slice.skipPlain_eq, Slice.rest_eq_nil_of_get? h]; rfl
  rw [ordinary_eq, ordinaryEnd, hj, h]

/-- Plain bytes are gone over one by one. -/
theorem ordinary_plain {s : Slice} {i : Nat} {b : UInt8} (h : s.get? i = some b)
    (hb : isPlain b = true) : ordinary s i = ordinary s (i + 1) := by
  have hj : s.skipPlain i = s.skipPlain (i + 1) := by
    rw [Slice.skipPlain_eq, Slice.skipPlain_eq, Slice.rest_eq_cons_of_get? h,
      List.takeWhile_cons_of_pos hb, List.length_cons]
    omega
  have hi : ordinary s (i + 1) = ordinaryEnd s (s.size - i + 1) (i + 1) :=
    ordinaryEnd_eq (Nat.le_refl _) (by omega)
  rw [ordinary_eq, hi, ordinaryEnd, ordinaryEnd, hj]

/-- At any other byte the scan stops. -/
theorem ordinary_some {s : Slice} {i : Nat} {b : UInt8} (h : s.get? i = some b)
    (hb : isPlain b = false) :
    ordinary s i =
      if b == quote || b == backslash then .ok i
      else if isControl b then .error ⟨.invalidString, i, i⟩
      else
        match Utf8.decode? (s.ahead i 4) with
        | none => .error ⟨.invalidUtf8, i, i⟩
        | some (_, length) => ordinary s (i + length) := by
  have hlt := Slice.lt_size_of_get? h
  have hj : s.skipPlain i = i := by
    rw [Slice.skipPlain_eq, Slice.rest_eq_cons_of_get? h, List.takeWhile_cons_of_neg (by simp [hb])]
    rfl
  rw [ordinary_eq, ordinaryEnd, hj, h]
  dsimp only
  split
  · rfl
  split
  · rfl
  cases hd : Utf8.decode? (s.ahead i 4) with
  | none => rfl
  | some c =>
      have hk := Utf8.length_of_decode? hd
      exact ordinaryEnd_eq (by omega) (Nat.le_refl _)

/-- Four bytes are enough to tell which character is encoded at an index. -/
theorem decode?_ahead_eq_some_iff {s : Slice} {i n k : Nat} :
    Utf8.decode? (s.ahead i 4) = some (n, k) ↔
      ∃ c back, s.rest i = c ++ back ∧ c.length = k ∧ Utf8.Encodes n c := by
  rw [Utf8.decode?_eq_some_iff, Slice.ahead_eq_take]
  constructor
  · rintro ⟨c, back, hr, hk, hc⟩
    refine ⟨c, back ++ (s.rest i).drop 4, ?_, hk, hc⟩
    rw [← List.append_assoc, ← hr, List.take_append_drop]
  · rintro ⟨c, back, hr, hk, hc⟩
    refine ⟨c, back.take (4 - c.length), ?_, hk, hc⟩
    rw [hr, List.take_append, List.take_of_length_le hc.length_le]

/-- What ends a stretch: the end of the document, a quote or a backslash. -/
def Pauses (bs : Bytes) : Prop :=
  ∀ b ∈ bs.head?, b = quote ∨ b = backslash

/-- What is neither plain nor a quote, a backslash or a control byte lies beyond ASCII. -/
theorem beyond_ascii : ∀ b : UInt8, isPlain b = false → b ≠ quote ∧ b ≠ backslash →
    isControl b = false → 0x80 ≤ b :=
  forall_byte (by decide)

/-- A byte beyond ASCII needs a second look, and is no control byte and no end of a stretch. -/
theorem of_beyond_ascii : ∀ b : UInt8, 0x80 ≤ b →
    isPlain b = false ∧ (b == quote || b == backslash) = false ∧ isControl b = false :=
  forall_byte (by decide)

theorem exists_cons_of_append {b : UInt8} {c back rest : Bytes} (hc : 0 < c.length)
    (h : c ++ back = b :: rest) : ∃ rest', c = b :: rest' := by
  cases c with
  | nil => cases hc
  | cons a c =>
      obtain ⟨rfl, -⟩ := List.cons.inj h
      exact ⟨c, rfl⟩

/-- Plain pieces stand between the indices, and behind them a stretch may end. -/
def PlainTo (s : Slice) (i j : Nat) : Prop :=
  ∃ ps back, (∀ p ∈ ps, p.Plain) ∧ s.rest i = Pieces.text ps ++ back ∧ Pauses back ∧
    j = i + (Pieces.text ps).length

theorem PlainTo.start {s : Slice} {i : Nat} (h : Pauses (s.rest i)) : PlainTo s i i :=
  ⟨[], s.rest i, by simp, rfl, h, rfl⟩

/-- A plain character before others. -/
theorem PlainTo.cons {s : Slice} {i j : Nat} {p : Piece} {back : Bytes} (hp : p.Plain)
    (hr : s.rest i = p.text ++ back) (h : PlainTo s (i + p.text.length) j) : PlainTo s i j := by
  obtain ⟨ps, back', hps, hr', hback, rfl⟩ := h
  refine ⟨p :: ps, back', ?_, ?_, hback, ?_⟩
  · rintro q (_ | ⟨_, hq⟩)
    · exact hp
    · exact hps q hq
  · rw [Slice.rest_add_length hr] at hr'
    rw [hr, hr', Pieces.text_cons, List.append_assoc]
  · rw [Pieces.text_cons, List.length_append, Nat.add_assoc]

/-- Up to where the ordinary characters end there are plain ones. -/
theorem plainTo_of_ordinary {s : Slice} {i j : Nat} (h : ordinary s i = .ok j) : PlainTo s i j := by
  -- on the bytes that are left: the scan goes on behind each character
  induction hn : s.size - i using Nat.strong_induction_on generalizing i with
  | h n ih =>
      cases hb : s.get? i with
      | none =>
          rw [ordinary_none hb] at h
          obtain rfl := Except.ok.inj h
          refine .start ?_
          rw [Slice.rest_eq_nil_of_get? hb]
          simp [Pauses]
      | some b =>
          have hr := Slice.rest_eq_cons_of_get? hb
          have hlt := Slice.lt_size_of_get? hb
          cases hp : isPlain b with
          | true =>
              rw [ordinary_plain hb hp] at h
              have hnext := ih (s.size - (i + 1)) (by omega) h rfl
              exact .cons (plain_of_isPlain hp) hr hnext
          | false =>
              rw [ordinary_some hb hp] at h
              split at h
              · next hstop =>
                  obtain rfl := Except.ok.inj h
                  refine .start ?_
                  rw [Pauses, hr]
                  rintro c ⟨⟩
                  simpa using hstop
              split at h
              · cases h
              next hstop hcontrol =>
                split at h
                · cases h
                next m k hd =>
                  obtain ⟨c, back, hr', rfl, hc⟩ := decode?_ahead_eq_some_iff.mp hd
                  have hpos := hc.length_pos
                  have hplain : Piece.Plain ⟨c, c⟩ := by
                    obtain ⟨rest, rfl⟩ := exists_cons_of_append hpos (hr'.symm.trans hr)
                    exact plain_of_encodes hc
                      (beyond_ascii b hp (by simpa using hstop) (by simpa using hcontrol))
                  have hnext := ih (s.size - (i + c.length)) (by omega) h rfl
                  exact .cons hplain hr' hnext

/-- Where a stretch may end the ordinary characters end. -/
theorem ordinary_of_pauses {s : Slice} {i : Nat} (h : Pauses (s.rest i)) :
    ordinary s i = .ok i := by
  cases hb : s.get? i with
  | none => exact ordinary_none hb
  | some b =>
      have hstop : b = quote ∨ b = backslash := by
        refine h b ?_
        rw [← Slice.get?_eq_head?, hb]
        rfl
      have hplain : isPlain b = false := by rcases hstop with rfl | rfl <;> rfl
      rw [ordinary_some hb hplain, if_pos (by simpa using hstop)]

/-- A plain piece is gone over. -/
theorem ordinary_piece {s : Slice} {i : Nat} {p : Piece} {back : Bytes} (hp : p.Plain)
    (hr : s.rest i = p.text ++ back) : ordinary s i = ordinary s (i + p.text.length) := by
  rcases plain_cases hp with ⟨b, rfl, hb⟩ | ⟨b, rest, n, rfl, hb, he⟩
  · have hget : s.get? i = some b := by
      rw [Slice.get?_eq_head?, hr]
      rfl
    exact ordinary_plain hget hb
  · have hget : s.get? i = some b := by
      rw [Slice.get?_eq_head?, hr]
      rfl
    obtain ⟨hplain, hstop, hcontrol⟩ := of_beyond_ascii b hb
    have hd := decode?_ahead_eq_some_iff.mpr ⟨b :: rest, _, hr, rfl, he⟩
    rw [ordinary_some hget hplain, hstop, hcontrol, hd]
    rfl

/-- **A stretch without escapes is read exactly when plain pieces stand there.** -/
theorem ordinary_eq_ok_iff {s : Slice} {i j : Nat} : ordinary s i = .ok j ↔ PlainTo s i j := by
  refine ⟨plainTo_of_ordinary, ?_⟩
  rintro ⟨ps, back, hps, hr, hback, rfl⟩
  induction ps generalizing i with
  | nil =>
      rw [Pieces.text_nil, List.nil_append] at hr
      exact ordinary_of_pauses (hr ▸ hback)
  | cons p ps ih =>
      rw [Pieces.text_cons, List.append_assoc] at hr
      rw [Pieces.text_cons, List.length_append, ← Nat.add_assoc,
        ordinary_piece (hps p List.mem_cons_self) hr]
      exact ih (fun q hq => hps q (List.mem_cons_of_mem _ hq)) (Slice.rest_add_length hr)

/-- The byte that a stretch ends at. -/
def ending (closed : Bool) : UInt8 :=
  if closed then quote else backslash

theorem stretch_eq_ok_iff {s : Slice} {opened i j : Nat} {closed : Bool} :
    stretch s opened i = .ok ⟨j, closed⟩ ↔
      ∃ ps back, (∀ p ∈ ps, p.Plain) ∧ s.rest i = Pieces.text ps ++ ending closed :: back ∧
        j = i + (Pieces.text ps).length := by
  rw [stretch, ← ordinary]
  constructor
  · intro h
    cases ho : ordinary s i with
    | error f =>
        rw [ho] at h
        cases h
    | ok k =>
        obtain ⟨ps, back, hps, hr, hback, rfl⟩ := ordinary_eq_ok_iff.mp ho
        rw [ho] at h
        have hget : s.get? (i + (Pieces.text ps).length) = back.head? := by
          rw [Slice.get?_eq_head?, Slice.rest_add_length hr]
        cases back with
        | nil =>
            simp only [hget, List.head?_nil] at h
            cases h
        | cons b back =>
            simp only [hget, List.head?_cons, Except.ok.injEq, Stretch.mk.injEq] at h
            obtain ⟨rfl, rfl⟩ := h
            refine ⟨ps, back, hps, ?_, rfl⟩
            rw [hr]
            rcases hback b rfl with rfl | rfl <;> rfl
  · rintro ⟨ps, back, hps, hr, rfl⟩
    have hpauses : Pauses (ending closed :: back) := by
      rintro b ⟨⟩
      cases closed
      · exact .inr rfl
      · exact .inl rfl
    have hget : s.get? (i + (Pieces.text ps).length) = some (ending closed) := by
      rw [Slice.get?_eq_head?, Slice.rest_add_length hr]
      rfl
    rw [ordinary_eq_ok_iff.mpr ⟨ps, _, hps, hr, hpauses, rfl⟩]
    simp only [hget]
    cases closed <;> rfl

/-! ### Whole literals -/

/-- An escape begins with a backslash. -/
theorem exists_text_of_escape {p : Piece} (h : p.Escape) : ∃ tail, p.text = backslash :: tail := by
  cases h <;> exact ⟨_, rfl⟩

theorem length_pos_of_escape {text bytes : Bytes} (h : Piece.Escape ⟨text, bytes⟩) :
    0 < text.length := by
  obtain ⟨tail, rfl⟩ := exists_text_of_escape h
  exact Nat.succ_pos _

/-- A plain character has no backslash. -/
theorem notMem_text_of_plain {p : Piece} (h : p.Plain) : backslash ∉ p.text := by
  rcases plain_cases h with ⟨b, rfl, hb⟩ | ⟨b, rest, n, rfl, hb, he⟩
  · intro hmem
    rw [← List.mem_singleton.mp hmem] at hb
    cases hb
  · intro hmem
    exact absurd (he.beyond_ascii (le_of_encodes he hb) _ hmem) (by decide)

/-- A legal character before legal ones. -/
theorem legal_cons {p : Piece} {ps : List Piece} (hp : p.Legal) (hps : ∀ q ∈ ps, q.Legal) :
    ∀ q ∈ p :: ps, q.Legal := by
  rintro q (_ | ⟨_, hq⟩)
  · exact hp
  · exact hps q hq

/-- Plain characters before legal ones. -/
theorem legal_append {run ps : List Piece} (hrun : ∀ p ∈ run, p.Plain) (hps : ∀ p ∈ ps, p.Legal) :
    ∀ p ∈ run ++ ps, p.Legal := by
  intro p hp
  rcases List.mem_append.mp hp with hp | hp
  · exact .inl (hrun p hp)
  · exact hps p hp

/-- Where a backslash stands, the pieces begin with an escape. -/
theorem exists_escape_of_backslash {s : Slice} {i : Nat} {ps : List Piece} {back : Bytes}
    (hi : s.get? i = some backslash) (hps : ∀ p ∈ ps, p.Legal)
    (hr : s.rest i = Pieces.text ps ++ quote :: back) : ∃ p rest, ps = p :: rest ∧ p.Escape := by
  rw [Slice.get?_eq_head?, hr] at hi
  cases ps with
  | nil => cases hi
  | cons p ps =>
      rcases hps p List.mem_cons_self with hp | hp
      · rcases plain_cases hp with ⟨b, rfl, hb⟩ | ⟨b, rest, n, rfl, hb, -⟩
        · obtain rfl : b = backslash := Option.some.inj hi
          cases hb
        · obtain rfl : b = backslash := Option.some.inj hi
          exact absurd hb (by decide)
      · exact ⟨p, ps, rfl, hp⟩

/-- Pieces are plain ones, and behind them nothing or an escape and more pieces. -/
theorem exists_split {ps : List Piece} (h : ∀ p ∈ ps, p.Legal) :
    ∃ run rest, ps = run ++ rest ∧ (∀ p ∈ run, p.Plain) ∧ (∀ p ∈ rest, p.Legal) ∧
      ∀ p ∈ rest.head?, p.Escape := by
  induction ps with
  | nil => exact ⟨[], [], rfl, by simp, by simp, by simp⟩
  | cons p ps ih =>
      rcases h p List.mem_cons_self with hp | hp
      · obtain ⟨run, rest, rfl, hrun, hrest, hhead⟩ :=
          ih fun q hq => h q (List.mem_cons_of_mem _ hq)
        refine ⟨p :: run, rest, rfl, ?_, hrest, hhead⟩
        rintro q (_ | ⟨_, hq⟩)
        · exact hp
        · exact hrun q hq
      · refine ⟨[], p :: ps, rfl, by simp, h, ?_⟩
        rintro q ⟨⟩
        exact hp

/-- One escape and the plain pieces behind it are read in one go. -/
theorem unescape_succ {s : Slice} {opened remaining i : Nat} {out : Output} {text cs back : Bytes}
    {run : List Piece} {closed : Bool} (hi : s.get? i = some backslash)
    (hp : Piece.Escape ⟨text, cs⟩) (hrun : ∀ p ∈ run, p.Plain)
    (hr : s.rest i = text ++ (Pieces.text run ++ ending closed :: back)) :
    unescape s opened (remaining + 1) i out =
      if closed then
        .ok (out.bytes ++ cs ++ Pieces.text run, i + text.length + (Pieces.text run).length + 1)
      else
        unescape s opened remaining (i + text.length + (Pieces.text run).length)
          ((out.append cs).append (Pieces.text run)) := by
  have hr' := Slice.rest_add_length hr
  rw [unescape, (escape_eq_ok_iff hi).mpr ⟨text, _, hp, hr, rfl⟩]
  dsimp only
  rw [stretch_eq_ok_iff.mpr ⟨run, back, hrun, hr', rfl⟩]
  dsimp only
  rw [Slice.bytes_between hr', Output.bytes_append, Output.bytes_append]

/-- Nothing else is read. -/
theorem exists_of_unescape {s : Slice} {opened remaining i : Nat} {out : Output}
    {r : Bytes × Nat} (hi : s.get? i = some backslash)
    (h : unescape s opened (remaining + 1) i out = .ok r) :
    ∃ text cs run closed back, Piece.Escape ⟨text, cs⟩ ∧ (∀ p ∈ run, p.Plain) ∧
      s.rest i = text ++ (Pieces.text run ++ ending closed :: back) := by
  rw [unescape] at h
  cases he : escape s opened i with
  | error f =>
      rw [he] at h
      cases h
  | ok e =>
      obtain ⟨text, back, hp, hr, hj⟩ := (escape_eq_ok_iff hi).mp he
      rw [he] at h
      dsimp only at h
      cases hs : stretch s opened e.2 with
      | error f =>
          rw [hs] at h
          cases h
      | ok part =>
          obtain ⟨run, back', hrun, hr', -⟩ := stretch_eq_ok_iff.mp hs
          rw [hj, Slice.rest_add_length hr] at hr'
          exact ⟨text, e.1, run, part.closed, back', hp, hrun, by rw [hr, hr']⟩

/-- Behind an escape and its plain pieces stands the closing quote or the next escape, and there is
less left than before. -/
theorem next_escape {s : Slice} {i remaining : Nat} {text cs back : Bytes} {run : List Piece}
    (hp : Piece.Escape ⟨text, cs⟩)
    (hr : s.rest i = text ++ (Pieces.text run ++ ending false :: back))
    (hn : s.size - i ≤ remaining + 1) :
    s.get? (i + text.length + (Pieces.text run).length) = some backslash ∧
      s.size - (i + text.length + (Pieces.text run).length) ≤ remaining := by
  have hget : s.get? (i + text.length + (Pieces.text run).length) = some backslash := by
    rw [Slice.get?_eq_head?, Slice.rest_add_length (Slice.rest_add_length hr)]
    rfl
  have hpos := length_pos_of_escape hp
  exact ⟨hget, by omega⟩

/-- Reading on from a backslash finds the pieces up to the closing quote. -/
theorem unescape_eq_ok_iff {s : Slice} {opened remaining i stop : Nat} {out : Output} {bs : Bytes}
    (hi : s.get? i = some backslash) (hn : s.size - i ≤ remaining) :
    unescape s opened remaining i out = .ok (bs, stop) ↔
      ∃ ps back, (∀ p ∈ ps, p.Legal) ∧ s.rest i = Pieces.text ps ++ quote :: back ∧
        bs = out.bytes ++ Pieces.bytes ps ∧ stop = i + (Pieces.text ps).length + 1 := by
  induction remaining generalizing i out with
  | zero =>
      have hlt := Slice.lt_size_of_get? hi
      omega
  | succ remaining ih =>
      constructor
      · intro h
        obtain ⟨text, cs, run, closed, back, hp, hrun, hr⟩ := exists_of_unescape hi h
        rw [unescape_succ hi hp hrun hr] at h
        cases closed with
        | true =>
            obtain ⟨rfl, rfl⟩ := Prod.mk.inj (Except.ok.inj h)
            refine ⟨⟨text, cs⟩ :: run, back, legal_cons (.inr hp) fun q hq => .inl (hrun q hq),
              ?_, ?_, ?_⟩
            · rw [hr, Pieces.text_cons, List.append_assoc]
              rfl
            · rw [Pieces.bytes_cons, Pieces.bytes_of_plain hrun, List.append_assoc]
            · rw [Pieces.text_cons, List.length_append, ← Nat.add_assoc]
        | false =>
            obtain ⟨hget, hsize⟩ := next_escape hp hr hn
            obtain ⟨ps, back', hps, hr', rfl, rfl⟩ := (ih hget hsize).mp h
            refine ⟨⟨text, cs⟩ :: (run ++ ps), back',
              legal_cons (.inr hp) (legal_append hrun hps), ?_, ?_, ?_⟩
            · rw [hr, Pieces.text_cons, Pieces.text_append, List.append_assoc, List.append_assoc,
                ← hr', Slice.rest_add_length (Slice.rest_add_length hr)]
            · simp [Pieces.bytes_of_plain hrun]
            · simp only [Pieces.text_cons, Pieces.text_append, List.length_append]
              omega
      · rintro ⟨ps, back, hps, hr, rfl, rfl⟩
        obtain ⟨p, ps, rfl, hp⟩ := exists_escape_of_backslash hi hps hr
        obtain ⟨run, rest, rfl, hrun, hrest, hhead⟩ :=
          exists_split fun q hq => hps q (List.mem_cons_of_mem p hq)
        -- an escape, the plain pieces behind it, and then the closing quote or another escape
        cases rest with
        | nil =>
            have hr' : s.rest i = p.text ++ (Pieces.text run ++ ending true :: back) := by
              rw [hr]
              simp [ending]
            rw [unescape_succ hi hp hrun hr', if_pos rfl]
            simp [Pieces.bytes_of_plain hrun, Nat.add_assoc]
        | cons e rest =>
            obtain ⟨tail, ht⟩ := exists_text_of_escape (hhead e rfl)
            have hr' : s.rest i = p.text ++ (Pieces.text run ++ ending false ::
                (tail ++ Pieces.text rest ++ quote :: back)) := by
              rw [hr]
              simp [ending, ht]
            obtain ⟨hget, hsize⟩ := next_escape hp hr' hn
            rw [unescape_succ hi hp hrun hr', if_neg Bool.false_ne_true]
            refine (ih hget hsize).mpr ⟨e :: rest, back, hrest, ?_, ?_, ?_⟩
            · rw [Slice.rest_add_length (Slice.rest_add_length hr')]
              simp [ending, ht]
            · simp [Pieces.bytes_of_plain hrun]
            · simp only [Pieces.text_cons, Pieces.text_append, List.length_append]
              omega

/-- There is no backslash in the text exactly when all pieces are plain. -/
theorem contains_backslash_eq_false_iff {ps : List Piece} (h : ∀ p ∈ ps, p.Legal) :
    (Pieces.text ps).contains backslash = false ↔ ∀ p ∈ ps, p.Plain := by
  rw [← Bool.not_eq_true, List.contains_iff_mem, Pieces.text, List.mem_flatMap]
  constructor
  · intro hno p hp
    rcases h p hp with hplain | hescape
    · exact hplain
    · obtain ⟨tail, ht⟩ := exists_text_of_escape hescape
      exact absurd ⟨p, hp, by rw [ht]; exact List.mem_cons_self⟩ hno
  · rintro hplain ⟨p, hp, hmem⟩
    exact notMem_text_of_plain (hplain p hp) hmem

/-- A literal without an escape is a window of the document. -/
theorem characters_of_plain {l : StringLiteral} (h : ∀ p ∈ l.pieces, p.Plain) (s : Slice) (i : Nat) :
    l.characters s i = .slice (s.between (i + 1) (i + 1 + (Pieces.text l.pieces).length)) := by
  have hl : l.hasEscape = false := (contains_backslash_eq_false_iff l.legal).mpr h
  rw [StringLiteral.characters, if_neg (by simp [hl])]

/-- A literal with an escape is decoded into bytes of its own. -/
theorem characters_of_escape {l : StringLiteral} {e : Piece} (he : e.Escape) (hmem : e ∈ l.pieces)
    (s : Slice) (i : Nat) : l.characters s i = .loose l.bytes := by
  obtain ⟨tail, ht⟩ := exists_text_of_escape he
  have hl : backslash ∈ Pieces.text l.pieces :=
    List.mem_flatMap.mpr ⟨e, hmem, by rw [ht]; exact List.mem_cons_self⟩
  exact if_pos (List.contains_iff_mem.mpr hl)

/-- A window is answered for a literal without an escape only. -/
theorem hasEscape_of_slice {l : StringLiteral} {s part : Slice} {i : Nat}
    (h : l.characters s i = .slice part) : l.hasEscape = false := by
  rw [StringLiteral.characters] at h
  split at h
  · cases h
  · next he => simpa using he

/-- Decoded bytes are answered for a literal with an escape only. -/
theorem hasEscape_of_loose {l : StringLiteral} {s : Slice} {i : Nat} {bs : Bytes}
    (h : l.characters s i = .loose bs) : l.hasEscape = true := by
  rw [StringLiteral.characters] at h
  split at h
  · next he => exact he
  · cases h

theorem length_text (l : StringLiteral) (i : Nat) :
    i + l.text.length = i + 1 + (Pieces.text l.pieces).length + 1 := by
  rw [StringLiteral.text, List.length_cons, List.length_append, List.length_singleton]
  omega

/-- A literal stands at its quote exactly when its pieces stand behind it, and the other quote. -/
theorem rest_eq_text_iff {l : StringLiteral} {s : Slice} {i : Nat} {back : Bytes}
    (hi : s.get? i = some quote) :
    s.rest i = l.text ++ back ↔ s.rest (i + 1) = Pieces.text l.pieces ++ quote :: back := by
  rw [Slice.rest_eq_cons_of_get? hi, StringLiteral.text]
  simp

/-- Up to a closing quote, plain characters are read as the window between the quotes. -/
theorem read_plain {s : Slice} {i : Nat} {run : List Piece} {back : Bytes}
    (hrun : ∀ p ∈ run, p.Plain) (hr : s.rest (i + 1) = Pieces.text run ++ ending true :: back) :
    read s i = .ok (.slice (s.between (i + 1) (i + 1 + (Pieces.text run).length)),
      i + 1 + (Pieces.text run).length + 1) := by
  rw [read, stretch_eq_ok_iff.mpr ⟨run, back, hrun, hr, rfl⟩]
  rfl

/-- Where the first escape stands, `unescape` takes over. -/
theorem read_escape {s : Slice} {i : Nat} {run : List Piece} {back : Bytes}
    (hrun : ∀ p ∈ run, p.Plain) (hr : s.rest (i + 1) = Pieces.text run ++ ending false :: back) :
    read s i = (unescape s i (s.size - (i + 1 + (Pieces.text run).length))
      (i + 1 + (Pieces.text run).length) (.ofBytes (Pieces.text run))).map
        fun found => (.loose found.1, found.2) := by
  rw [read, stretch_eq_ok_iff.mpr ⟨run, back, hrun, hr, rfl⟩]
  dsimp only
  rw [if_neg Bool.false_ne_true, Slice.bytes_between hr]
  split <;> next hu => rw [hu]; rfl

/-- What is read from a quote on is a literal that stands there. -/
theorem exists_literal_of_read {s : Slice} {i : Nat} {r : Characters × Nat}
    (hi : s.get? i = some quote) (h : read s i = .ok r) :
    ∃ (l : StringLiteral) (back : Bytes), s.rest i = l.text ++ back ∧
      r = (l.characters s i, i + l.text.length) := by
  cases hs : stretch s i (i + 1) with
  | error f =>
      rw [read, hs] at h
      cases h
  | ok part =>
      obtain ⟨run, back, hrun, hr, -⟩ := stretch_eq_ok_iff.mp hs
      -- a run up to the closing quote is all of the literal; behind a run up to an escape the rest is
      -- decoded by the loop
      cases hclosed : part.closed with
      | true =>
          rw [hclosed] at hr
          let l : StringLiteral := ⟨run, fun p hp => .inl (hrun p hp)⟩
          refine ⟨l, back, (rest_eq_text_iff hi).mpr hr, ?_⟩
          rw [read_plain hrun hr] at h
          rw [← Except.ok.inj h, characters_of_plain hrun, length_text]
      | false =>
          rw [hclosed] at hr
          rw [read_escape hrun hr] at h
          cases hu : unescape s i (s.size - (i + 1 + (Pieces.text run).length))
              (i + 1 + (Pieces.text run).length) (.ofBytes (Pieces.text run)) with
          | error f =>
              rw [hu] at h
              cases h
          | ok found =>
              obtain ⟨bs, stop⟩ := found
              have hget : s.get? (i + 1 + (Pieces.text run).length) = some backslash := by
                rw [Slice.get?_eq_head?, Slice.rest_add_length hr]
                rfl
              obtain ⟨ps, back', hps, hr', rfl, rfl⟩ :=
                (unescape_eq_ok_iff hget (Nat.le_refl _)).mp hu
              obtain ⟨e, rest, rfl, he⟩ := exists_escape_of_backslash hget hps hr'
              let l : StringLiteral := ⟨run ++ e :: rest, legal_append hrun hps⟩
              refine ⟨l, back', (rest_eq_text_iff hi).mpr ?_, ?_⟩
              · rw [Slice.rest_add_length hr] at hr'
                rw [hr, hr', Pieces.text_append, List.append_assoc]
              · rw [hu] at h
                rw [← Except.ok.inj h, characters_of_escape he (by simp [l]), length_text,
                  StringLiteral.bytes, Pieces.text_append, Pieces.bytes_append,
                  Pieces.bytes_of_plain hrun, List.length_append, Output.bytes_ofBytes,
                  ← Nat.add_assoc]

/-- The literal that stands at an index is read. -/
theorem read_of_literal {s : Slice} {i : Nat} {l : StringLiteral} {back : Bytes}
    (hi : s.get? i = some quote) (h : s.rest i = l.text ++ back) :
    read s i = .ok (l.characters s i, i + l.text.length) := by
  have hbody := (rest_eq_text_iff hi).mp h
  obtain ⟨run, rest, hl, hrun, hrest, hhead⟩ := exists_split l.legal
  cases rest with
  | nil =>
      have hplain : ∀ p ∈ l.pieces, p.Plain := by
        rw [hl, List.append_nil]
        exact hrun
      rw [read_plain hplain hbody, characters_of_plain hplain, length_text]
  | cons e rest =>
      obtain ⟨tail, ht⟩ := exists_text_of_escape (hhead e rfl)
      rw [hl, Pieces.text_append, List.append_assoc] at hbody
      have hr : s.rest (i + 1) = Pieces.text run ++ ending false ::
          (tail ++ Pieces.text rest ++ quote :: back) := by
        rw [hbody, Pieces.text_cons, ht]
        simp [ending]
      have hget : s.get? (i + 1 + (Pieces.text run).length) = some backslash := by
        rw [Slice.get?_eq_head?, Slice.rest_add_length hr]
        rfl
      have hu := (@unescape_eq_ok_iff _ i _ _ _ (.ofBytes (Pieces.text run)) _ hget
        (Nat.le_refl _)).mpr ⟨e :: rest, back, hrest, Slice.rest_add_length hbody, rfl, rfl⟩
      rw [read_escape hrun hr, hu, characters_of_escape (hhead e rfl) (by simp [hl]), length_text,
        StringLiteral.bytes, hl, Pieces.text_append, Pieces.bytes_append,
        Pieces.bytes_of_plain hrun, List.length_append, Output.bytes_ofBytes, ← Nat.add_assoc]
      rfl

/-- **A literal is read exactly when one of the grammar stands there.** -/
theorem read_eq_ok_iff {s : Slice} {i : Nat} {r : Characters × Nat} (hi : s.get? i = some quote) :
    read s i = .ok r ↔
      ∃ (l : StringLiteral) (back : Bytes), s.rest i = l.text ++ back ∧
        r = (l.characters s i, i + l.text.length) := by
  refine ⟨exists_literal_of_read hi, ?_⟩
  rintro ⟨l, back, h, rfl⟩
  exact read_of_literal hi h

end Literal

end JsonTree
