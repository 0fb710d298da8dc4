import JsonTree.Proofs.Written

/-!
# Layout — what the pretty text is, looked at byte by byte

A written text is looked at without knowing its value: a byte stands between quotes or not
(`Quoting`), and what stands outside of quotes opens and closes arrays and objects (`Spot`).

* `Quoting.erase`: the text without the spaces and newlines that stand outside of quotes.
* `Spot.Line`: a line is begun as it should be, with two spaces for every array and object around
  its first token.
* `Laid`: what is held of each part of a pretty text, and with it of any parts in a row.
* `pretty_is_compact_laid_out`: the pretty text without its blanks is the compact text, and each of
  its lines is begun as it should be.
-/

namespace JsonTree

open Ascii

/-! ### Bytes that matter -/

/-- A byte that lays out lines. -/
def isLayout (b : UInt8) : Bool :=
  b == space || b == newline

/-- A bracket or brace that begins an array or object. -/
def opens (b : UInt8) : Bool :=
  b == openBracket || b == openBrace

/-- A bracket or brace that ends an array or object. -/
def closes (b : UInt8) : Bool :=
  b == closeBracket || b == closeBrace

/-- What opens an array or object is a bracket or a brace. -/
theorem eq_of_opens {b : UInt8} (hb : opens b = true) : b = openBracket ∨ b = openBrace := by
  simpa [opens] using hb

/-- What closes an array or object is a bracket or a brace. -/
theorem eq_of_closes {b : UInt8} (hb : closes b = true) : b = closeBracket ∨ b = closeBrace := by
  simpa [closes] using hb

theorem not_isLayout_of_opens {b : UInt8} (hb : opens b = true) : isLayout b = false := by
  rcases eq_of_opens hb with rfl | rfl <;> rfl

theorem not_isLayout_of_closes {b : UInt8} (hb : closes b = true) : isLayout b = false := by
  rcases eq_of_closes hb with rfl | rfl <;> rfl

/-- A newline is for the layout only. -/
theorem ne_newline {b : UInt8} (hb : isLayout b = false) : b ≠ newline := by
  rintro rfl
  cases hb

/-! ### Quotes -/

/-- Where a byte stands. -/
inductive Quoting where
  /-- Not between quotes. -/
  | outside
  /-- Between quotes. -/
  | inside
  /-- Between quotes and behind a backslash that escapes it. -/
  | escaped
  deriving DecidableEq

namespace Quoting

/-- Where the byte behind another stands. -/
def next : Quoting → UInt8 → Quoting
  | outside, b => if b = quote then inside else outside
  | inside, b => if b = quote then outside else if b = backslash then escaped else inside
  | escaped, _ => inside

/-- Where the byte behind a text stands. -/
def behind (q : Quoting) (bs : Bytes) : Quoting :=
  bs.foldl next q

/-- The text without the spaces and newlines that stand outside of quotes. -/
def erase : Quoting → Bytes → Bytes
  | _, [] => []
  | q, b :: bs =>
    if q = outside ∧ isLayout b = true then erase (q.next b) bs else b :: erase (q.next b) bs

theorem behind_append (q : Quoting) (bs bs' : Bytes) :
    q.behind (bs ++ bs') = (q.behind bs).behind bs' :=
  List.foldl_append

/-- What is erased of a text in two parts depends on the quotes in the first. -/
theorem erase_append (q : Quoting) (bs bs' : Bytes) :
    q.erase (bs ++ bs') = q.erase bs ++ (q.behind bs).erase bs' := by
  induction bs generalizing q with
  | nil => rfl
  | cons b bs ih =>
      rw [List.cons_append, erase, erase, ih]
      split <;> rfl

/-- Blanks do not begin a string. -/
theorem next_of_isLayout : ∀ b : UInt8, isLayout b = true → outside.next b = outside :=
  forall_byte (by decide)

/-- Nothing is erased between quotes. -/
theorem erase_of_ne {q : Quoting} (h : q ≠ outside) (b : UInt8) (bs : Bytes) :
    q.erase (b :: bs) = b :: (q.next b).erase bs :=
  if_neg fun hq => h hq.1

/-- Nothing but spaces and newlines is erased. -/
theorem erase_of_not_isLayout {b : UInt8} (h : isLayout b = false) (q : Quoting) (bs : Bytes) :
    q.erase (b :: bs) = b :: (q.next b).erase bs :=
  if_neg fun hq => by simp [h] at hq

/-- Brackets and braces do not begin a string. -/
theorem next_of_opens {b : UInt8} (hb : opens b = true) : outside.next b = outside := by
  rcases eq_of_opens hb with rfl | rfl <;> rfl

end Quoting

/-! ### Containers -/

/-- What can be said of a place in a text by what stands in front of it. -/
structure Spot where
  quoting : Quoting := .outside
  /-- How many arrays and objects are open. -/
  opened : Nat := 0
  /-- One of them was opened last, with blanks behind it at most. -/
  justOpened : Bool := false

namespace Spot

/-- The spot behind a byte. -/
def next (s : Spot) (b : UInt8) : Spot :=
  if s.quoting = .outside then
    if isLayout b = true then s
    else
      { quoting := s.quoting.next b
        opened := if opens b then s.opened + 1 else if closes b then s.opened - 1 else s.opened
        justOpened := opens b }
  else { s with quoting := s.quoting.next b, justOpened := false }

/-- The spot behind a text. -/
def behind (s : Spot) (bs : Bytes) : Spot :=
  bs.foldl next s

/-- How many arrays and objects are around a token: one that ends an array or object is around all
others that stand in it. -/
def around (s : Spot) (token : UInt8) : Nat :=
  if closes token then s.opened - 1 else s.opened

/-- The text begins a line as it should be begun: with two spaces for every array and object around
its first token.  An array or object that was opened in front of it is not ended by that token. -/
def Line (s : Spot) (bs : Bytes) : Prop :=
  s.quoting = .outside ∧ ∃ token rest,
    bs = List.replicate (2 * s.around token) space ++ token :: rest ∧ isLayout token = false ∧
      (closes token = true → s.justOpened = false)

/-- Every line but the first is begun as it should be. -/
def Lines (s : Spot) (bs : Bytes) : Prop :=
  ∀ front back, bs = front ++ newline :: back → (s.behind front).Line back

@[simp] theorem behind_nil (s : Spot) : s.behind [] = s := rfl

@[simp] theorem behind_cons (s : Spot) (b : UInt8) (bs : Bytes) :
    s.behind (b :: bs) = (s.next b).behind bs := rfl

/-- The spot behind a text in two parts. -/
theorem behind_append (s : Spot) (bs bs' : Bytes) :
    s.behind (bs ++ bs') = (s.behind bs).behind bs' :=
  List.foldl_append

/-- An opening bracket or brace counts one container more. -/
theorem next_of_opens {k : Nat} {j : Bool} {b : UInt8} (hb : opens b = true) :
    (Spot.mk .outside k j).next b = ⟨.outside, k + 1, true⟩ := by
  rcases eq_of_opens hb with rfl | rfl <;> rfl

/-- A closing bracket or brace counts one container less. -/
theorem next_of_closes {k : Nat} {j : Bool} {b : UInt8} (hb : closes b = true) :
    (Spot.mk .outside (k + 1) j).next b = ⟨.outside, k, false⟩ := by
  rcases eq_of_closes hb with rfl | rfl <;> rfl

/-- Blanks outside of quotes make no difference to where a byte stands. -/
theorem next_layout {s : Spot} (hs : s.quoting = .outside) {b : UInt8} (hb : isLayout b = true) :
    s.next b = s := by
  rw [next, if_pos hs, if_pos hb]

/-- A spot knows the quotes of the text in front of it, whatever else it counts. -/
theorem quoting_next (s : Spot) (b : UInt8) : (s.next b).quoting = s.quoting.next b := by
  rw [next]
  split
  · next hs =>
      split
      · next hb => rw [hs, Quoting.next_of_isLayout b hb]
      · rfl
  · rfl

theorem quoting_behind (s : Spot) (bs : Bytes) : (s.behind bs).quoting = s.quoting.behind bs := by
  induction bs generalizing s with
  | nil => rfl
  | cons b bs ih =>
      rw [behind_cons, ih, quoting_next]
      rfl

/-- Whether a line is begun as it should be is settled at its first bytes that are no blanks. -/
theorem Line.append {s : Spot} {bs : Bytes} (h : s.Line bs) (bs' : Bytes) : s.Line (bs ++ bs') := by
  obtain ⟨hs, token, rest, rfl, htoken, hclose⟩ := h
  exact ⟨hs, token, rest ++ bs', by simp, htoken, hclose⟩

namespace Lines

variable {s : Spot} {bs bs' : Bytes}

/-- In a text without newlines no line is to be begun. -/
theorem of_not_mem (h : newline ∉ bs) : s.Lines bs := by
  rintro front back rfl
  exact absurd (List.mem_append_right _ List.mem_cons_self) h

theorem nil : s.Lines [] :=
  of_not_mem List.not_mem_nil

theorem cons {b : UInt8} (hb : b ≠ newline) (h : (s.next b).Lines bs) :
    s.Lines (b :: bs) := by
  intro front back hsplit
  cases front with
  | nil => exact absurd (List.cons.inj hsplit).1 hb
  | cons c front =>
      obtain ⟨rfl, rfl⟩ := List.cons.inj hsplit
      exact h front back rfl

/-- A newline and its line stand in one of the parts, or the newline ends the first. -/
theorem append (h : s.Lines bs) (h' : (s.behind bs).Lines bs') : s.Lines (bs ++ bs') := by
  intro front back hsplit
  rcases List.append_eq_append_iff.mp hsplit with ⟨cs, rfl, hbs'⟩ | ⟨cs, rfl, hbs'⟩
  · rw [behind_append]
    exact h' cs back hbs'
  · cases cs with
    | nil =>
        rw [List.append_nil] at h'
        exact h' [] back hbs'.symm
    | cons c cs =>
        obtain ⟨rfl, rfl⟩ := List.cons.inj hbs'
        exact (h front cs rfl).append bs'

/-- A newline, and a line that is begun as it should be. -/
theorem of_line (hline : s.Line bs) (h : s.Lines bs) : s.Lines (newline :: bs) := by
  intro front back hsplit
  cases front with
  | nil =>
      rw [← (List.cons.inj hsplit).2]
      exact hline
  | cons b front =>
      obtain ⟨rfl, rfl⟩ := List.cons.inj hsplit
      rw [behind_cons, next_layout hline.1 rfl]
      exact h front back rfl

end Lines

end Spot

/-! ### Parts of a pretty text -/

/-- What is held of a part of a pretty text with so many arrays and objects around it, and of what
is written in its place in the compact layout. -/
structure Laid (opened : Nat) (bs compact : Bytes) : Prop where
  behind : ∀ j, (Spot.mk .outside opened j).behind bs = ⟨.outside, opened, false⟩
  lines : ∀ j, (Spot.mk .outside opened j).Lines bs
  erase : Quoting.outside.erase bs = compact

namespace Laid

variable {k : Nat} {bs cs bs' cs' : Bytes}

/-- A part that is laid out leaves no quote open. -/
theorem quoting (h : Laid k bs cs) : Quoting.outside.behind bs = .outside := by
  rw [← Spot.quoting_behind ⟨.outside, k, false⟩, h.behind]

/-- **Laid out parts in a row are laid out.** -/
theorem append (h : Laid k bs cs) (h' : Laid k bs' cs') : Laid k (bs ++ bs') (cs ++ cs') := by
  refine ⟨fun j => ?_, fun j => ?_, ?_⟩
  · rw [Spot.behind_append, h.behind, h'.behind]
  · refine (h.lines j).append ?_
    rw [h.behind]
    exact h'.lines false
  · rw [Quoting.erase_append, h.erase, h.quoting, h'.erase]

end Laid

/-! ### Indented lines -/

section Indented

variable {s : Spot} {bs : Bytes}

/-- A new line leaves the spot as it is. -/
theorem Spot.behind_line (hs : s.quoting = .outside) (n : Nat) :
    s.behind (Layout.pretty.line n).text = s := by
  rw [Layout.line, behind_cons, next_layout hs rfl]
  induction n with
  | zero => rfl
  | succ n ih => rw [List.replicate_succ, behind_cons, next_layout hs rfl, ih]

/-- A new line with its blanks is erased. -/
theorem Quoting.erase_line (n : Nat) (bs : Bytes) :
    outside.erase ((Layout.pretty.line n).text ++ bs) = outside.erase bs := by
  have hspaces : outside.erase (List.replicate n space ++ bs) = outside.erase bs := by
    induction n with
    | zero => rfl
    | succ n ih => exact ih
  exact hspaces

/-- Spaces outside of quotes begin no line. -/
theorem Spot.Lines.spaces (hs : s.quoting = .outside) (h : s.Lines bs) (n : Nat) :
    s.Lines (List.replicate n space ++ bs) := by
  induction n with
  | zero => exact h
  | succ n ih =>
      refine cons (by decide) ?_
      rw [next_layout hs rfl]
      exact ih

/-- A newline with its indentation. -/
theorem Spot.Lines.line {n : Nat} (hline : s.Line (List.replicate n space ++ bs))
    (h : s.Lines bs) : s.Lines ((Layout.pretty.line n).text ++ bs) :=
  of_line hline (h.spaces hline.1 n)

end Indented

/-- The text begins with a token that ends no array or object. -/
def Begins (bs : Bytes) : Prop :=
  ∃ token rest, bs = token :: rest ∧ isLayout token = false ∧ closes token = false

/-- How a text begins does not depend on what follows. -/
theorem Begins.append {bs : Bytes} (h : Begins bs) (bs' : Bytes) : Begins (bs ++ bs') := by
  obtain ⟨token, rest, rfl, htoken, hclose⟩ := h
  exact ⟨token, rest ++ bs', rfl, htoken, hclose⟩

/-- A text that begins with a token, behind two spaces for everything open, begins a line as it
should. -/
theorem Begins.line {s : Spot} {bs : Bytes} (hs : s.quoting = .outside) (h : Begins bs) :
    s.Line (List.replicate (2 * s.opened) space ++ bs) := by
  obtain ⟨token, rest, rfl, htoken, hclose⟩ := h
  refine ⟨hs, token, rest, ?_, htoken, fun hc => absurd hc (by simp [hclose])⟩
  rw [Spot.around, hclose]
  rfl

namespace Laid

variable {k : Nat} {bs cs : Bytes}

/-- A comma, and a new line for what follows. -/
theorem behind_comma (h : Laid k bs cs) (hb : Begins bs) :
    Laid k (comma :: ((Layout.pretty.line (2 * k)).text ++ bs)) (comma :: cs) := by
  have hnext : ∀ j, (Spot.mk .outside k j).next comma = ⟨.outside, k, false⟩ := fun _ => rfl
  refine ⟨fun j => ?_, fun j => ?_, ?_⟩
  · rw [Spot.behind_cons, hnext, Spot.behind_append, Spot.behind_line rfl, h.behind]
  · exact .cons (by decide) (.line (hb.line rfl) (h.lines false))
  · refine congrArg (comma :: ·) ?_
    exact (Quoting.erase_line _ _).trans h.erase

/-- Parts behind commas, each on a line of its own. -/
theorem joined {α : Type} {text compact : α → Bytes} {first : α} {more : List α}
    (h : ∀ x ∈ first :: more, Laid k (text x) (compact x) ∧ Begins (text x)) :
    Laid k (text first ++
      more.flatMap fun x => comma :: ((Layout.pretty.line (2 * k)).text ++ text x))
      (compact first ++ more.flatMap fun x => comma :: compact x) := by
  induction more generalizing first with
  | nil => simpa using (h first List.mem_cons_self).1
  | cons x more ih =>
      have hmore := ih fun y hy => h y (List.mem_cons_of_mem _ hy)
      have hbegins := (h x (List.mem_cons_of_mem _ List.mem_cons_self)).2
      have := (h first List.mem_cons_self).1.append (hmore.behind_comma (hbegins.append _))
      simpa using this

/-- An array or object without content. -/
theorem empty {opening closing : UInt8} (ho : opens opening = true) (hc : closes closing = true) :
    Laid k [opening, closing] [opening, closing] := by
  refine ⟨fun j => ?_, fun j => ?_, ?_⟩
  · rw [Spot.behind_cons, Spot.next_of_opens ho, Spot.behind_cons, Spot.next_of_closes hc,
      Spot.behind_nil]
  · exact .cons (ne_newline (not_isLayout_of_opens ho))
      (.cons (ne_newline (not_isLayout_of_closes hc)) .nil)
  · rw [Quoting.erase_of_not_isLayout (not_isLayout_of_opens ho), Quoting.next_of_opens ho,
      Quoting.erase_of_not_isLayout (not_isLayout_of_closes hc)]
    rfl

/-- An array or object with content. -/
theorem enclosed {opening closing : UInt8} (ho : opens opening = true) (hc : closes closing = true)
    (h : Laid (k + 1) bs cs) (hb : Begins bs) :
    Laid k (opening :: ((Layout.pretty.line (2 * (k + 1))).text ++
      (bs ++ ((Layout.pretty.line (2 * k)).text ++ [closing]))))
      (opening :: (cs ++ [closing])) := by
  have hopen : ∀ j, (Spot.mk .outside k j).next opening = ⟨.outside, k + 1, true⟩ := fun _ =>
    Spot.next_of_opens ho
  have hclose : (Spot.mk .outside (k + 1) false).next closing = ⟨.outside, k, false⟩ :=
    Spot.next_of_closes hc
  have hend : (Spot.mk .outside (k + 1) false).Line (List.replicate (2 * k) space ++ [closing]) :=
    ⟨rfl, closing, [], by rw [Spot.around, if_pos hc]; rfl, not_isLayout_of_closes hc, fun _ => rfl⟩
  refine ⟨fun j => ?_, fun j => ?_, ?_⟩
  · rw [Spot.behind_cons, hopen, Spot.behind_append, Spot.behind_line rfl, Spot.behind_append,
      h.behind, Spot.behind_append, Spot.behind_line rfl, Spot.behind_cons, hclose, Spot.behind_nil]
  · -- lines are begun behind the opening, in the content and behind the content
    refine .cons (ne_newline (not_isLayout_of_opens ho)) ?_
    rw [hopen]
    refine .line ((hb.append _).line rfl) ((h.lines true).append ?_)
    rw [h.behind]
    exact .line hend (.cons (ne_newline (not_isLayout_of_closes hc)) .nil)
  · rw [Quoting.erase_of_not_isLayout (not_isLayout_of_opens ho), Quoting.next_of_opens ho,
      Quoting.erase_line, Quoting.erase_append, h.erase, h.quoting, Quoting.erase_line,
      Quoting.erase_of_not_isLayout (not_isLayout_of_closes hc)]
    rfl

end Laid

/-! ### Strings -/

namespace Quoting

/-- The text stays between quotes, but for the quote at its end. -/
def stays : Quoting → Bytes → Bool
  | _, [] => true
  | q, b :: bs => q != outside && stays (q.next b) bs

theorem stays_append (q : Quoting) (bs bs' : Bytes) :
    q.stays (bs ++ bs') = (q.stays bs && (q.behind bs).stays bs') := by
  induction bs generalizing q with
  | nil => rfl
  | cons b bs ih => rw [List.cons_append, stays, stays, ih, Bool.and_assoc]; rfl

/-- Where no byte stands outside of quotes, nothing is erased. -/
theorem erase_of_stays {q : Quoting} {bs : Bytes} (h : q.stays bs = true) : q.erase bs = bs := by
  induction bs generalizing q with
  | nil => rfl
  | cons b bs ih =>
      rw [stays, Bool.and_eq_true, bne_iff_ne] at h
      rw [erase_of_ne h.1, ih h.2]

/-- What is written for a byte of a string stays between the quotes. -/
theorem stays_escaped : ∀ b : UInt8, inside.stays (Write.escaped b) = true ∧
    inside.behind (Write.escaped b) = inside ∧ newline ∉ Write.escaped b :=
  forall_byte (by decide)

/-- The bytes of a written string stay between its quotes. -/
theorem stays_flatMap_escaped (bs : Bytes) : inside.stays (bs.flatMap Write.escaped) = true ∧
    inside.behind (bs.flatMap Write.escaped) = inside := by
  induction bs with
  | nil => exact ⟨rfl, rfl⟩
  | cons b bs ih =>
      obtain ⟨hstays, hbehind, -⟩ := stays_escaped b
      rw [List.flatMap_cons, stays_append, behind_append, hstays, hbehind]
      exact ih

end Quoting

/-- Between quotes nothing is opened or closed. -/
theorem Spot.behind_of_stays {q : Quoting} {bs : Bytes} (h : q.stays bs = true) (k : Nat) :
    (Spot.mk q k false).behind bs = ⟨q.behind bs, k, false⟩ := by
  induction bs generalizing q with
  | nil => rfl
  | cons b bs ih =>
      rw [Quoting.stays, Bool.and_eq_true, bne_iff_ne] at h
      rw [behind_cons, Spot.next, if_neg h.1, ih h.2]
      rfl

/-- A written string is left as it is, whatever its bytes are. -/
theorem laid_quoted (k : Nat) (bs : Bytes) : Laid k (Write.quoted bs) (Write.quoted bs) := by
  obtain ⟨hstays, hbehind⟩ := Quoting.stays_flatMap_escaped bs
  have hall : Quoting.inside.stays (bs.flatMap Write.escaped ++ [quote]) = true := by
    rw [Quoting.stays_append, hstays, hbehind]
    rfl
  rw [Write.quoted_eq]
  refine ⟨fun j => ?_, fun j => .of_not_mem fun hmem => ?_, ?_⟩
  · have hnext : (Spot.mk .outside k j).next quote = ⟨.inside, k, false⟩ := rfl
    rw [Spot.behind_cons, hnext, Spot.behind_of_stays hall, Quoting.behind_append, hbehind]
    rfl
  · simp only [List.mem_cons, List.mem_append, List.mem_flatMap, List.not_mem_nil, or_false] at hmem
    rcases hmem with hmem | ⟨b, -, hmem⟩ | hmem
    · cases hmem
    · exact (Quoting.stays_escaped b).2.2 hmem
    · cases hmem
  · exact congrArg (quote :: ·) (Quoting.erase_of_stays hall)

/-- A written string begins with its quote. -/
theorem begins_quoted (bs : Bytes) : Begins (Write.quoted bs) :=
  ⟨quote, _, Write.quoted_eq bs, rfl, rfl⟩

/-! ### Words and numbers -/

/-- A byte of a word or a number. -/
def isBare (b : UInt8) : Bool :=
  b != quote && !isLayout b && !opens b && !closes b

/-- A text of such bytes. -/
def Bare (bs : Bytes) : Prop :=
  bs ≠ [] ∧ ∀ b ∈ bs, isBare b = true

/-- A text of bytes that are for words and numbers is one of them. -/
theorem bare_of_all {bs : Bytes} (hne : bs.isEmpty = false) (h : bs.all isBare = true) :
    Bare bs :=
  ⟨List.isEmpty_eq_false_iff.mp hne, List.all_eq_true.mp h⟩

namespace Bare

variable {bs : Bytes}

/-- Words and numbers have no quotes, no blanks and no brackets. -/
theorem isBare_cases {b : UInt8} (h : isBare b = true) :
    b ≠ quote ∧ isLayout b = false ∧ opens b = false ∧ closes b = false := by
  simpa [isBare, and_assoc] using h

/-- A byte of a word leaves the spot as it is, but for what has just been opened. -/
theorem next {b : UInt8} (h : isBare b = true) (k : Nat) (j : Bool) :
    (Spot.mk .outside k j).next b = ⟨.outside, k, false⟩ := by
  obtain ⟨hquote, hlayout, hopens, hcloses⟩ := isBare_cases h
  simp [Spot.next, Quoting.next, hquote, hlayout, hopens, hcloses]

theorem laid_byte {b : UInt8} (h : isBare b = true) (k : Nat) : Laid k [b] [b] := by
  obtain ⟨-, hlayout, -, -⟩ := isBare_cases h
  exact ⟨next h k, fun _ => .cons (ne_newline hlayout) .nil,
    Quoting.erase_of_not_isLayout hlayout _ _⟩

/-- **A word or a number is laid out as it is**, wherever it stands. -/
theorem laid (h : Bare bs) (k : Nat) : Laid k bs bs := by
  obtain ⟨hne, hbare⟩ := h
  induction bs with
  | nil => exact absurd rfl hne
  | cons b bs ih =>
      have hb := laid_byte (hbare b List.mem_cons_self) k
      cases bs with
      | nil => exact hb
      | cons c bs =>
          exact hb.append
            (ih (List.cons_ne_nil _ _) fun d hd => hbare d (List.mem_cons_of_mem _ hd))

theorem begins (h : Bare bs) : Begins bs := by
  obtain ⟨hne, hbare⟩ := h
  obtain ⟨b, rest, rfl⟩ := List.exists_cons_of_ne_nil hne
  obtain ⟨-, hlayout, -, hcloses⟩ := isBare_cases (hbare b List.mem_cons_self)
  exact ⟨b, rest, rfl, hlayout, hcloses⟩

end Bare

theorem isBare_of_isPart : ∀ b : UInt8, Numeral.isPart b = true → isBare b = true :=
  forall_byte (by decide)

/-- A numeral is written like a word. -/
theorem bare_text {n : Numeral} (h : n.Proper) : Bare n.text :=
  ⟨by simp [Numeral.text_eq, h.whole.1], fun b hb => isBare_of_isPart b (h.isPart_of_mem b hb)⟩

/-- Every floating point number is written like a word, one that is not finite included. -/
theorem bare_floatingText (x : Binary64) : Bare (Write.floatingText x) := by
  cases hx : x.isFinite with
  | true =>
      obtain ⟨n, hproper, -, htext, -⟩ := Write.numberStyle.exists_numeral_finite hx
      rw [Write.floatingText, if_pos hx, ← htext]
      exact bare_text hproper
  | false =>
      obtain ⟨word, hword, -⟩ := Write.exists_word hx
      rw [← hword]
      cases word <;> exact bare_of_all rfl rfl

/-- An integer is written like a word. -/
theorem bare_integer (n : Int64) : Bare (Write.integer n) := by
  obtain ⟨m, hproper, -, htext, -⟩ := Write.exists_numeral_integer n
  rw [← htext]
  exact bare_text hproper

/-! ### Values -/

namespace Value

/-- What is held of the text of a value. -/
def LaysOut (v : Value) : Prop :=
  ∀ k, Laid k (v.render .pretty (2 * k)) (v.render .compact 0) ∧
    Begins (v.render .pretty (2 * k))

/-- A value that is written as a word or number in both layouts is laid out. -/
theorem laysOut_of_bare {v : Value} {bs : Bytes} (h : Bare bs)
    (hv : ∀ layout indent, v.render layout indent = bs) : v.LaysOut := by
  intro k
  rw [hv, hv]
  exact ⟨h.laid k, h.begins⟩

/-- A key is separated from its value by a colon and a space. -/
theorem laid_gap (k : Nat) : Laid k (colon :: Layout.pretty.gap.text) [colon] :=
  ⟨fun _ => rfl, fun _ => .of_not_mem (by decide), rfl⟩

/-- A member is laid out when its value is. -/
theorem laysOut_member {m : Member} (h : m.2.LaysOut) (k : Nat) :
    Laid k (renderMember .pretty (2 * k) m) (renderMember .compact 0 m) ∧
      Begins (renderMember .pretty (2 * k) m) := by
  refine ⟨?_, (begins_quoted _).append _⟩
  have := (laid_quoted k m.1.bytes).append ((laid_gap k).append (h k).1)
  simpa [renderMember, Layout.gap, Blanks.none] using this

theorem inner_pretty (k : Nat) : Layout.pretty.inner (2 * k) = 2 * (k + 1) := rfl

/-- **What is written for a value is laid out**, at every indentation. -/
theorem laysOut (v : Value) : v.LaysOut := by
  induction v with
  | null => exact laysOut_of_bare (bare_of_all rfl rfl) fun _ _ => rfl
  | boolean b => exact laysOut_of_bare (by cases b <;> exact bare_of_all rfl rfl) fun _ _ => rfl
  | integer n => exact laysOut_of_bare (bare_integer n) fun _ _ => rfl
  | floating x => exact laysOut_of_bare (bare_floatingText x) fun _ _ => rfl
  | string t => exact fun k => ⟨laid_quoted k t.bytes, begins_quoted t.bytes⟩
  | array items ih =>
      intro k
      refine ⟨?_, ?_⟩
      · cases items with
        | nil => exact .empty rfl rfl
        | cons v vs =>
            have hcontent := Laid.joined fun u hu => ih u hu (k + 1)
            have hbegins := (ih v List.mem_cons_self (k + 1)).2.append
              (vs.flatMap fun u => comma :: ((Layout.pretty.line (2 * (k + 1))).text ++
                u.render .pretty (2 * (k + 1))))
            rw [render, render, renderItems_eq, renderItems_eq, inner_pretty]
            simpa [Layout.inner, Layout.line, Blanks.none] using
              hcontent.enclosed (rfl : opens openBracket = true) (rfl : closes closeBracket = true)
                hbegins
      · cases items <;> exact ⟨openBracket, _, rfl, rfl, rfl⟩
  | object members ih =>
      intro k
      refine ⟨?_, ?_⟩
      · cases members with
        | nil => exact .empty rfl rfl
        | cons m ms =>
            have hcontent := Laid.joined fun n hn => laysOut_member (ih n hn) (k + 1)
            have hbegins := (laysOut_member (ih m List.mem_cons_self) (k + 1)).2.append
              (ms.flatMap fun n => comma :: ((Layout.pretty.line (2 * (k + 1))).text ++
                renderMember .pretty (2 * (k + 1)) n))
            rw [render_object_cons, render_object_cons, renderMembers_eq, renderMembers_eq,
              inner_pretty]
            simpa [Layout.inner, Layout.line, Blanks.none] using
              hcontent.enclosed (rfl : opens openBrace = true) (rfl : closes closeBrace = true)
                hbegins
      · cases members <;> exact ⟨openBrace, _, rfl, rfl, rfl⟩

end Value

/-- **The pretty text is the compact text laid out.**  Without the spaces and newlines outside of
quotes it is the compact text, and wherever a line begins it is begun as it should be. -/
theorem pretty_is_compact_laid_out {v : Value} {allowNonFinite : Bool} {text : Bytes}
    (h : v.write ⟨.pretty, allowNonFinite⟩ = .ok text) :
    v.write ⟨.compact, allowNonFinite⟩ = .ok (Quoting.outside.erase text) ∧
      ∀ front back, text = front ++ back → (front = [] ∨ front.getLast? = some newline) →
        (Spot.behind {} front).Line back := by
  obtain ⟨hmay, rfl⟩ := Value.write_eq_ok_iff.mp h
  obtain ⟨hlaid, hbegins⟩ := v.laysOut 0
  refine ⟨Value.write_eq_ok_iff.mpr ⟨hmay, hlaid.erase⟩, ?_⟩
  rintro front back hsplit (rfl | hlast)
  · rw [List.nil_append] at hsplit
    rw [← hsplit]
    exact hbegins.line rfl
  · obtain ⟨before, rfl⟩ := List.getLast?_eq_some_iff.mp hlast
    rw [List.append_assoc] at hsplit
    have hline := hlaid.lines false before back hsplit
    rwa [Spot.behind_append, Spot.behind_cons, Spot.next_layout hline.1 rfl]

/-- A string with a bracket, a quote and a newline in it, an array without content and one with. -/
def bracketInString : Value :=
  .array [.string (.own (Bytes.ofString "] \" \n")), .array [], .array [.null]]

theorem pretty_is_compact_laid_out_bracketInString :
    let text := Bytes.ofString "[\n  \"] \\\" \\n\",\n  [],\n  [\n    null\n  ]\n]"
    bracketInString.write ⟨.pretty, false⟩ = .ok text ∧
      bracketInString.write ⟨.compact, false⟩ = .ok (Bytes.ofString "[\"] \\\" \\n\",[],[null]]") ∧
      ∀ front back, text = front ++ back → (front = [] ∨ front.getLast? = some newline) →
        (Spot.behind {} front).Line back := by
  have h : bracketInString.write ⟨.pretty, false⟩ =
      .ok (Bytes.ofString "[\n  \"] \\\" \\n\",\n  [],\n  [\n    null\n  ]\n]") := by
    refine Value.write_eq_ok_iff.mpr ⟨by simp [bracketInString, Value.Allowed], ?_⟩
    decide +kernel
  obtain ⟨hcompact, hlines⟩ := pretty_is_compact_laid_out h
  refine ⟨h, hcompact.trans (congrArg Except.ok ?_), hlines⟩
  decide +kernel

end JsonTree
