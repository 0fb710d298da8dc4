import JsonTree.Error.Excerpt
import JsonTree.Proofs.Decimal
import JsonTree.Proofs.Placement

/-!
# Description — the line an error is shown on

An error is described by its place in numbers, by what is shown of the line it stands on, and by a
caret.  `LineAround source offset` says what may be shown, of the bytes alone: the line that holds
the offset, with at most forty bytes on either side of it, and fewer only where the line ends.

* `nonempty_lineAround`: every offset in a text, its end included, is on a line.
* `LineAround.around_eq`: what may be shown around an offset is what is shown.
* `Error.splitOn_describe`: three lines are written.
* `description_points_at_offset`: the caret stands below the offset.
-/

namespace JsonTree

open Ascii Bytes

/-! ### The first line -/

namespace Bytes

theorem ofString_append (s t : String) : ofString (s ++ t) = ofString s ++ ofString t := by
  simp [ofString]

/-- A number is written as it is shown. -/
theorem decimal_eq (n : Nat) : decimal n = ofString (toString n) := by
  have hdigit : ∀ c ∈ Nat.toDigits 10 n, String.utf8EncodeChar c = [c.toNat.toUInt8] := by
    intro c hc
    have hd : c.isDigit = true := Nat.isDigit_of_mem_toDigits (by decide) (by decide) hc
    have hascii : c.val.toNat ≤ 127 := by
      simp only [Char.isDigit, Bool.and_eq_true, decide_eq_true_eq] at hd
      exact Nat.le_trans (UInt32.le_iff_toNat_le.mp hd.2) (by decide)
    rw [String.utf8EncodeChar, if_pos hascii]
    rfl
  have hchars : (Nat.toDigits 10 n).flatMap String.utf8EncodeChar =
      (Nat.toDigits 10 n).flatMap fun c => [c.toNat.toUInt8] := List.flatMap_congr hdigit
  have hbytes : ofString (toString n) = (Nat.toDigits 10 n).flatMap String.utf8EncodeChar := by
    simp [ofString, Nat.repr, List.utf8Encode]
  rw [hbytes, hchars, decimal, List.map_eq_flatMap]

/-- No digit is a control byte. -/
theorem all_decimal (n : Nat) : (decimal n).all (fun b => !isControl b) = true := by
  have hdigit : ∀ b : UInt8, isDigit b = true → (!isControl b) = true := forall_byte (by decide)
  exact List.all_eq_true.mpr fun b hb => hdigit b ((digits_decimal n).2 b hb)

end Bytes

namespace Error

/-- What the first line says. -/
theorem header_eq (e : Error) : e.header = Bytes.ofString (e.code.message ++ " at line " ++
    toString e.line ++ ", column " ++ toString e.column ++ " (offset " ++ toString e.offset ++
    ")") := by
  simp only [header, ofString_append, decimal_eq]

/-- The first line holds no control byte. -/
theorem all_header (e : Error) : e.header.all (fun b => !isControl b) = true := by
  have hmessage : (Bytes.ofString e.code.message).all (fun b => !isControl b) = true := by
    cases e.code <;> decide
  simp only [header, List.all_append, hmessage, all_decimal, Bool.true_and, Bool.and_true]
  decide

theorem not_mem_header (e : Error) {b : UInt8} (h : isControl b = true) : b ∉ e.header := by
  intro hb
  have hnot := List.all_eq_true.mp e.all_header b hb
  rw [h] at hnot
  cases hnot

end Error

/-! ### Lines -/

/-- The bytes in front of the first newline. -/
def firstLine (bs : Bytes) : Bytes :=
  bs.takeWhile (· != newline)

/-- What stands in front of the last line. -/
def beforeLastLine (bs : Bytes) : Bytes :=
  (bs.reverse.dropWhile (· != newline)).reverse

theorem append_lastLine (bs : Bytes) : beforeLastLine bs ++ lastLine bs = bs := by
  rw [beforeLastLine, lastLine, ← List.reverse_append, List.takeWhile_append_dropWhile,
    List.reverse_reverse]

theorem newline_not_mem_firstLine (bs : Bytes) : newline ∉ firstLine bs :=
  fun h => absurd (of_mem_takeWhile newline h) (by decide)

theorem newline_not_mem_lastLine (bs : Bytes) : newline ∉ lastLine bs :=
  fun h => newline_not_mem_firstLine bs.reverse (List.mem_reverse.mp h)

theorem stops_newline_iff {bs : Bytes} :
    Stops (· != newline) bs ↔ bs = [] ∨ bs.head? = some newline := by
  cases bs with
  | nil => simp
  | cons b bs => simp

/-- What ends with a newline, or is nothing, is not part of the last line. -/
theorem lastLine_append {front line : Bytes} (hfront : front = [] ∨ front.getLast? = some newline)
    (hline : newline ∉ line) : lastLine (front ++ line) = line := by
  have hrun : ∀ b ∈ line.reverse, (b != newline) = true := fun b hb =>
    bne_iff_ne.mpr fun h => hline (List.mem_reverse.mp (h ▸ hb))
  have hstops : Stops (· != newline) front.reverse :=
    stops_newline_iff.mpr (by simpa using hfront)
  rw [lastLine, List.reverse_append, takeWhile_run hrun hstops, List.reverse_reverse]

/-- What begins with a newline, or is nothing, is not part of the first line. -/
theorem firstLine_append {line back : Bytes} (hback : back = [] ∨ back.head? = some newline)
    (hline : newline ∉ line) : firstLine (line ++ back) = line := by
  have hrun : ∀ b ∈ line, (b != newline) = true := fun b hb =>
    bne_iff_ne.mpr fun h => hline (h ▸ hb)
  exact takeWhile_run hrun (stops_newline_iff.mpr hback)

/-! ### The line of an offset -/

/-- A text taken apart around an offset: the line the offset is on, and what may be shown of it. -/
structure LineAround (source : Bytes) (offset : Nat) where
  /-- What stands in front of the line. -/
  front : Bytes
  /-- What the line holds in front of the offset: the bytes that are left out -/
  skipped : Bytes
  /-- and those that are shown. -/
  ahead : Bytes
  /-- What the line holds from the offset on: the bytes that are shown -/
  behind : Bytes
  /-- and those that are left out. -/
  dropped : Bytes
  /-- What stands behind the line, its newline first. -/
  back : Bytes
  text : source = front ++ (skipped ++ ahead) ++ (behind ++ dropped ++ back)
  place : (front ++ (skipped ++ ahead)).length = offset
  opened : front = [] ∨ front.getLast? = some newline
  closed : back = [] ∨ back.head? = some newline
  unbroken : newline ∉ skipped ++ ahead ++ (behind ++ dropped)
  ahead_le : ahead.length ≤ 40
  behind_le : behind.length ≤ 40
  skipped_or : skipped = [] ∨ ahead.length = 40
  dropped_or : dropped = [] ∨ behind.length = 40

/-- **Every offset in a text is on a line**, and so is its end. -/
theorem nonempty_lineAround {source : Bytes} {offset : Nat} (h : offset ≤ source.length) :
    Nonempty (LineAround source offset) := by
  refine ⟨{
    front := beforeLastLine (source.take offset)
    skipped := (lastLine (source.take offset)).take ((lastLine (source.take offset)).length - 40)
    ahead := (lastLine (source.take offset)).drop ((lastLine (source.take offset)).length - 40)
    behind := (firstLine (source.drop offset)).take 40
    dropped := (firstLine (source.drop offset)).drop 40
    back := (source.drop offset).dropWhile (· != newline)
    text := ?text, place := ?place, opened := ?opened, closed := ?closed, unbroken := ?unbroken
    ahead_le := ?ahead_le, behind_le := List.length_take_le _ _
    skipped_or := ?skipped_or, dropped_or := ?dropped_or }⟩
  case text =>
    rw [List.take_append_drop, List.take_append_drop, append_lastLine, firstLine,
      List.takeWhile_append_dropWhile, List.take_append_drop]
  case place => rw [List.take_append_drop, append_lastLine, List.length_take_of_le h]
  case opened =>
    rw [beforeLastLine, List.getLast?_reverse, List.reverse_eq_nil_iff]
    exact stops_newline_iff.mp (stops_dropWhile _ _)
  case closed => exact stops_newline_iff.mp (stops_dropWhile _ _)
  case unbroken =>
    rw [List.take_append_drop, List.take_append_drop, List.mem_append, not_or]
    exact ⟨newline_not_mem_lastLine _, newline_not_mem_firstLine _⟩
  case ahead_le =>
    rw [List.length_drop]
    omega
  case skipped_or =>
    rw [List.take_eq_nil_iff, List.length_drop]
    omega
  case dropped_or =>
    rw [List.drop_eq_nil_iff, List.length_take]
    omega

/-- What is shown is the beginning, up to so many bytes. -/
theorem take_shown {shown hidden : Bytes} {n : Nat} (hle : shown.length ≤ n)
    (h : hidden = [] ∨ shown.length = n) : (shown ++ hidden).take n = shown := by
  rcases h with rfl | rfl
  · rw [List.append_nil, List.take_of_length_le hle]
  · exact List.take_left

namespace LineAround

variable {source : Bytes} {offset : Nat}

theorem lastLine_eq (a : LineAround source offset) :
    lastLine (source.take offset) = a.skipped ++ a.ahead := by
  have htake : source.take offset = a.front ++ (a.skipped ++ a.ahead) :=
    (congrArg (List.take offset) a.text).trans (List.take_left' a.place)
  rw [htake, lastLine_append a.opened fun h => a.unbroken (List.mem_append_left _ h)]

theorem drop_eq (a : LineAround source offset) :
    source.drop offset = a.behind ++ a.dropped ++ a.back :=
  (congrArg (List.drop offset) a.text).trans (List.drop_left' a.place)

theorem firstLine_eq (a : LineAround source offset) :
    firstLine (source.drop offset) = a.behind ++ a.dropped := by
  rw [a.drop_eq, firstLine_append a.closed fun h => a.unbroken (List.mem_append_right _ h)]

end LineAround

/-! ### The excerpt around an offset -/

namespace Excerpt

/-- The last line begins behind the last newline. -/
theorem lineStart_eq {source : Bytes} {i : Nat} (h : i ≤ source.length) :
    lineStart (.ofBytes 0 source) i + (lastLine (source.take i)).length = i := by
  induction i with
  | zero => rfl
  | succ i ih =>
      have hbyte : (Slice.ofBytes 0 source).get? i = some source[i] := by
        rw [Slice.get?_eq_getElem?, Slice.bytes_ofBytes, List.getElem?_eq_getElem h]
      have htake : source.take (i + 1) = source.take i ++ [source[i]] :=
        List.take_succ_eq_append_getElem h
      rw [lineStart, hbyte, htake]
      by_cases hb : source[i] = newline
      · simp [hb, lastLine]
      · have hlast : lastLine (source.take i ++ [source[i]]) =
            lastLine (source.take i) ++ [source[i]] := by
          rw [lastLine, List.reverse_append, List.reverse_singleton, List.singleton_append,
            List.takeWhile_cons_of_pos (by simpa using hb), List.reverse_cons, ← lastLine]
        rw [if_neg (by simpa using hb), hlast, List.length_append, ← Nat.add_assoc,
          ih (Nat.le_of_succ_le h)]
        rfl

/-- The first line ends at the first newline. -/
theorem lineStop_eq (source : Bytes) (i : Nat) :
    lineStop (.ofBytes 0 source) i = i + (firstLine (source.drop i)).length := by
  have htest : (fun b : UInt8 => !(b != newline)) = (· == newline) := by
    funext b
    rw [bne, Bool.not_not]
  rw [lineStop, Slice.seek_eq _ _ _ _ (Nat.le_refl _), Slice.rest, Slice.bytes_ofBytes, firstLine,
    List.takeWhile_eq_take_findIdx_not, htest, List.length_take,
    Nat.min_eq_left List.findIdx_le_length]

/-- Clipped, the last line begins where so much of it is left at most. -/
theorem clip_start {start length n : Nat} (h : start + length = n) :
    (if reach < n - start then n - reach else start) = start + (length - reach) := by
  split <;> omega

/-- Clipped, the first line ends behind so much of it at most. -/
theorem clip_stop (n length : Nat) :
    (if reach < n + length - n then n + reach else n + length) = n + min reach length := by
  split <;> omega

/-- **The indexes cut out what the lines are**: at most so much of the last line in front of the
offset, and of the first line from there on. -/
theorem around_eq (source : Bytes) (offset : Nat) :
    around source offset =
      ⟨((lastLine (source.take (min offset source.length))).reverse.take reach).reverse,
        (firstLine (source.drop (min offset source.length))).take reach⟩ := by
  have hsize : (Slice.ofBytes 0 source).size = source.length := by
    rw [← Slice.length_bytes, Slice.bytes_ofBytes]
  generalize hn : min offset source.length = n
  have hrest : (Slice.ofBytes 0 source).rest n = source.drop n := by
    rw [Slice.rest, Slice.bytes_ofBytes]
  have hstart := lineStart_eq (hn ▸ Nat.min_le_right offset source.length)
  rw [around, hsize, hn, clip_start hstart, lineStop_eq, clip_stop]
  generalize hlast : lastLine (source.take n) = last at hstart ⊢
  generalize hfirst : firstLine (source.drop n) = first
  refine congrArg₂ Excerpt.mk ?_ ?_
  · -- what is left out of the last line stands behind what is in front of it
    have hlength : (beforeLastLine (source.take n)).length + last.length = n := by
      rw [← hlast, ← List.length_append, append_lastLine, List.length_take]
      omega
    have hwhole : (Slice.ofBytes 0 source).rest 0 =
        (beforeLastLine (source.take n) ++ last.take (last.length - reach)) ++
          (last.drop (last.length - reach) ++ source.drop n) := by
      rw [Slice.rest_zero, Slice.bytes_ofBytes, List.append_assoc, ← List.append_assoc (last.take _),
        List.take_append_drop, ← List.append_assoc, ← hlast, append_lastLine, List.take_append_drop]
    have hfrom : 0 + (beforeLastLine (source.take n) ++ last.take (last.length - reach)).length =
        lineStart (.ofBytes 0 source) n + (last.length - reach) := by
      rw [List.length_append, List.length_take]
      omega
    have hto : lineStart (.ofBytes 0 source) n + (last.length - reach) +
        (last.drop (last.length - reach)).length = n := by
      rw [List.length_drop]
      omega
    have hshown := Slice.bytes_between (Slice.rest_add_length hwhole)
    rw [hfrom, hto] at hshown
    rw [List.take_reverse, List.reverse_reverse, hshown]
  · have hline : (Slice.ofBytes 0 source).rest n =
        first.take reach ++ (first.drop reach ++ (source.drop n).dropWhile (· != newline)) := by
      rw [hrest, ← List.append_assoc, List.take_append_drop, ← hfirst, firstLine,
        List.takeWhile_append_dropWhile]
    rw [← List.length_take, Slice.bytes_between hline]

end Excerpt

/-- **What may be shown around an offset is what is shown.** -/
theorem LineAround.around_eq {source : Bytes} {offset : Nat}
    (a : LineAround source (min offset source.length)) :
    Excerpt.around source offset = ⟨a.ahead, a.behind⟩ := by
  have hahead : (lastLine (source.take (min offset source.length))).reverse.take 40 =
      a.ahead.reverse := by
    rw [a.lastLine_eq, List.reverse_append]
    exact take_shown (by simpa using a.ahead_le) (by simpa using a.skipped_or)
  have hbehind : (firstLine (source.drop (min offset source.length))).take 40 = a.behind := by
    rw [a.firstLine_eq]
    exact take_shown a.behind_le a.dropped_or
  rw [Excerpt.around_eq, Excerpt.reach, hahead, hbehind, List.reverse_reverse]

/-! ### Three lines -/

/-- A byte in the width of one column. -/
def inOneColumn (b : UInt8) : UInt8 :=
  if b = tab ∨ b = carriageReturn then space else b

namespace LineAround

variable {source : Bytes} {offset : Nat}

/-- What is shown of the line. -/
def shown (a : LineAround source offset) : Bytes :=
  (a.ahead ++ a.behind).map inOneColumn

/-- The caret, with a blank for each byte shown in front of the offset. -/
def marker (a : LineAround source offset) : Bytes :=
  List.replicate a.ahead.length space ++ [caret]

theorem line_eq (a : LineAround source offset) :
    (⟨a.ahead, a.behind⟩ : Excerpt).line = a.shown := by
  refine List.map_congr_left fun b _ => ?_
  simp only [Excerpt.visible, inOneColumn, Bool.or_eq_true, beq_iff_eq]

theorem newline_not_mem_shown (a : LineAround source offset) : newline ∉ a.shown := by
  intro h
  obtain ⟨b, hb, hshown⟩ := List.mem_map.mp h
  rw [inOneColumn] at hshown
  split at hshown
  · exact absurd hshown (by decide)
  · refine a.unbroken (hshown ▸ ?_)
    simp only [List.mem_append] at hb ⊢
    tauto

theorem eq_of_mem_marker (a : LineAround source offset) {b : UInt8} (h : b ∈ a.marker) :
    b = space ∨ b = caret := by
  rcases List.mem_append.mp h with h | h
  · exact .inl (List.eq_of_mem_replicate h)
  · exact .inr (List.mem_singleton.mp h)

end LineAround

namespace Error

variable {e : Error} {source : Bytes}

/-- The three lines. -/
def descriptionLines (e : Error) {offset : Nat} (a : LineAround source offset) : List Bytes :=
  [e.header, [space, space] ++ a.shown, [space, space] ++ a.marker]

theorem describe_eq (h : source ≠ []) (a : LineAround source (min e.offset source.length)) :
    e.describe source = [newline].intercalate (e.descriptionLines a) := by
  have hgap : Bytes.ofString "\n  " = [newline, space, space] := by decide
  rw [describe, if_neg (by simpa using h)]
  dsimp only
  rw [a.around_eq, a.line_eq, hgap]
  simp [descriptionLines, Excerpt.marker, LineAround.marker, List.intercalate]

/-- **An error is described in three lines.** -/
theorem splitOn_describe (h : source ≠ []) (a : LineAround source (min e.offset source.length)) :
    (e.describe source).splitOn newline = e.descriptionLines a := by
  have hheader : newline ∉ e.header := e.not_mem_header (by decide)
  have hindent : newline ∉ [space, space] := by decide
  have hmarker : newline ∉ a.marker := fun h => absurd (a.eq_of_mem_marker h) (by decide)
  rw [describe_eq h a]
  refine List.splitOn_intercalate newline ?_ (List.cons_ne_nil _ _)
  simp only [descriptionLines, List.forall_mem_cons, List.mem_append, not_or]
  exact ⟨hheader, ⟨hindent, a.newline_not_mem_shown⟩, ⟨hindent, hmarker⟩, List.forall_mem_nil _⟩

end Error

namespace LineAround

/-- Where the line is shown from its beginning, the caret stands in the column on record. -/
theorem column_eq {e : Error} {s : Slice} {code : ErrorCode} {offset : Nat}
    (he : e = Error.locate s code offset) (a : LineAround s.bytes (min e.offset s.bytes.length))
    (h : a.skipped = []) : e.column = 1 + a.ahead.length := by
  have htake : s.bytes.take (min e.offset s.bytes.length) = s.ahead 0 offset := by
    rw [Slice.ahead_eq_take, Slice.rest_zero, he]
    exact List.take_eq_take_min.symm
  have hline := a.lastLine_eq
  rw [h, List.nil_append, htake] at hline
  rw [← hline, he, Error.locate, LineColumn.behind_eq]

/-- The byte at the offset is the first that is shown from there on, unless the line ends. -/
theorem head?_behind {source : Bytes} {offset : Nat} (a : LineAround source offset) :
    a.behind.head? = source[offset]?.filter (· != newline) := by
  have hbyte : source[offset]? = (a.behind ++ a.dropped ++ a.back).head? := by
    rw [← a.drop_eq, List.head?_drop]
  rw [hbyte]
  cases hbehind : a.behind with
  | nil =>
      have hdropped : a.dropped = [] := a.dropped_or.resolve_right (by simp [hbehind])
      rw [hdropped, List.nil_append, List.nil_append]
      rcases a.closed with hback | hback <;> rw [hback] <;> rfl
  | cons b rest =>
      have hb : b ≠ newline := fun h => a.unbroken (by simp [hbehind, h])
      have hkept : (some b).filter (· != newline) = some b :=
        Option.filter_some_eq_some.mpr (bne_iff_ne.mpr hb)
      exact hkept.symm

/-- **The byte at the offset is shown above the caret**, and nothing is where the line ends. -/
theorem above_caret {source : Bytes} {offset : Nat} (a : LineAround source offset) :
    a.shown[a.ahead.length]? = (source[offset]?.filter (· != newline)).map inOneColumn := by
  rw [← a.head?_behind, shown, List.getElem?_map, List.getElem?_append_right (Nat.le_refl _),
    Nat.sub_self, List.head?_eq_getElem?]

end LineAround

/-- **The caret stands below the offset.**  In a text that is not empty an offset, or the end for
one behind the end, is on a line, and of that line may be shown at most forty bytes on either side
of the offset, fewer only where the line ends.  An error is described in three lines.  The first
gives the cause and the place in numbers; the second is what may be shown, a tab and a carriage
return as one space each; and the third has a caret behind as many blanks as bytes are shown in
front of the offset, so that the byte at the offset is above it, or nothing where the line ends. 
Where the line is shown from its beginning, the blanks are one less than the column of an error that
was recorded for the text. -/
theorem description_points_at_offset {e : Error} {source : Bytes} (h : source ≠ []) :
    e.header = Bytes.ofString (e.code.message ++ " at line " ++ toString e.line ++ ", column " ++
      toString e.column ++ " (offset " ++ toString e.offset ++ ")") ∧
    Nonempty (LineAround source (min e.offset source.length)) ∧
    ∀ a : LineAround source (min e.offset source.length),
      (e.describe source).splitOn newline =
        [e.header, [space, space] ++ (a.ahead ++ a.behind).map inOneColumn,
          [space, space] ++ (List.replicate a.ahead.length space ++ [caret])] ∧
      a.shown[a.ahead.length]? =
        (source[min e.offset source.length]?.filter (· != newline)).map inOneColumn ∧
      ∀ (s : Slice) (code : ErrorCode) (offset : Nat), s.bytes = source →
        Fault.record none s code offset = some e → a.skipped = [] →
          a.ahead.length = e.column - 1 := by
  refine ⟨e.header_eq, nonempty_lineAround (Nat.min_le_right _ _), fun a =>
    ⟨Error.splitOn_describe h a, a.above_caret, ?_⟩⟩
  rintro s code offset rfl hrecord hskipped
  have hcolumn := a.column_eq (Option.some.inj hrecord).symm hskipped
  omega

/-- A long line that begins with letters and has a tab in it. -/
def longLine : Bytes :=
  List.replicate 41 0x78 ++ [tab, 0x79, carriageReturn]

/-- An error at the tab, and one recorded behind the end of a short line. -/
theorem description_points_at_offset_longLine :
    [comma, newline] ++ longLine ++ [newline, closeBracket] ≠ [] ∧
    (Error.describe ⟨.invalidValue, 43, 7, 9⟩
        ([comma, newline] ++ longLine ++ [newline, closeBracket])).splitOn newline =
      [Bytes.ofString "invalid value at line 7, column 9 (offset 43)",
        [space, space] ++ (List.replicate 40 0x78 ++ [space, 0x79, space]),
        [space, space] ++ (List.replicate 40 space ++ [caret])] ∧
    ∃ a : LineAround [tab, newline, tab] (min 9 3),
      (Error.describe ⟨.unexpectedEnd, 9, 2, 2⟩ [tab, newline, tab]).splitOn newline =
        [Bytes.ofString "unexpected end of input at line 2, column 2 (offset 9)",
          [space, space, space], [space, space] ++ (List.replicate a.ahead.length space ++ [caret])] ∧
      a.ahead.length = 2 - 1 := by
  let long : LineAround ([comma, newline] ++ longLine ++ [newline, closeBracket]) 43 :=
    { front := [comma, newline], skipped := [0x78], ahead := List.replicate 40 0x78
      behind := [tab, 0x79, carriageReturn], dropped := [], back := [newline, closeBracket]
      text := by decide, place := by decide, opened := by decide, closed := by decide
      unbroken := by decide, ahead_le := by decide, behind_le := by decide
      skipped_or := by decide, dropped_or := by decide }
  let short : LineAround [tab, newline, tab] (min 9 3) :=
    { front := [tab, newline], skipped := [], ahead := [tab], behind := [], dropped := [], back := []
      text := by decide, place := by decide, opened := by decide, closed := by decide
      unbroken := by decide, ahead_le := by decide, behind_le := by decide
      skipped_or := by decide, dropped_or := by decide }
  obtain ⟨hheader, -, hlong⟩ := @description_points_at_offset ⟨.invalidValue, 43, 7, 9⟩
    ([comma, newline] ++ longLine ++ [newline, closeBracket]) (by decide)
  obtain ⟨hheader', -, hshort⟩ := @description_points_at_offset ⟨.unexpectedEnd, 9, 2, 2⟩
    [tab, newline, tab] (by decide)
  obtain ⟨hlines, -, hcolumn⟩ := hshort short
  refine ⟨by decide, ?_, short, ?_, hcolumn (.ofBytes 0 [tab, newline, tab]) .unexpectedEnd 9
    (Slice.bytes_ofBytes _ _) rfl rfl⟩
  · rw [(hlong long).1, hheader]
    decide
  · rw [hlines, hheader']
    decide

end JsonTree
