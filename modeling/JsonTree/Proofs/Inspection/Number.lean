import JsonTree.Reader
import JsonTree.Proofs.Inspection
import JsonTree.Proofs.Numeral

/-!
# Inspection of numbers

A number is gone through byte by byte, and every byte is looked at behind a test that there is one.
`Finds s p scan` joins a computation that goes on from an index to a function on what is left there;
it is kept when one thing is looked for behind another (`Finds.andThen`), so that a number is found
because its parts are.

* `finds_numeral?`: a number is scanned.
* `gives_numeral?`: the number at an index of a document is found, and where it ends.
-/

namespace JsonTree

namespace Inspection

variable {α β : Type}

/-! ### The parts of a number -/

/-- The digits from an index on, among so many bytes. -/
def digitRun (size : Nat) : (remaining i : Nat) → Inspection Bytes
  | 0, _ => return []
  | remaining + 1, i => do
    match ← byte? size i with
    | none => return []
    | some b =>
      if Ascii.isDigit b then
        let ds ← digitRun size remaining (i + 1)
        return b :: ds
      else return []

/-- One digit at least from an index on, and where they end. -/
def digits? (size i : Nat) : Inspection (Option (Bytes × Nat)) := do
  let ds ← digitRun size (size - i) i
  return if ds.isEmpty then none else some (ds, i + ds.length)

/-- The byte at an index if there is one that passes the test, and where it ends. -/
def front? (size : Nat) (test : UInt8 → Bool) (i : Nat) :
    Inspection (Option (Option UInt8 × Nat)) := do
  match ← byte? size i with
  | none => return some (none, i)
  | some b => return if test b then some (some b, i + 1) else some (none, i)

/-- Refuses a byte that passes the test, and goes over nothing. -/
def refuse? (size : Nat) (test : UInt8 → Bool) (i : Nat) : Inspection (Option (Unit × Nat)) := do
  match ← byte? size i with
  | none => return some ((), i)
  | some b => return if test b then none else some ((), i)

/-- Goes over nothing. -/
def found (a : α) (i : Nat) : Inspection (Option (α × Nat)) :=
  return some (a, i)

/-- One thing, and another from where it ends. -/
def andThen (p : Nat → Inspection (Option (α × Nat)))
    (q : α → Nat → Inspection (Option (β × Nat))) (i : Nat) : Inspection (Option (β × Nat)) := do
  match ← p i with
  | none => return none
  | some (a, j) => q a j

/-- The digits before the point, behind a zero if there is one; no digit may follow that. -/
def wholeBehind? (size : Nat) : Option UInt8 → Nat → Inspection (Option (Bytes × Nat))
  | none => digits? size
  | some z => andThen (refuse? size Ascii.isDigit) fun _ => found [z]

/-- The digits before the point. -/
def whole? (size : Nat) : Nat → Inspection (Option (Bytes × Nat)) :=
  andThen (front? size (· == Ascii.zero)) (wholeBehind? size)

/-- A fraction, behind its point if there is one. -/
def fractionBehind? (size : Nat) :
    Option UInt8 → Nat → Inspection (Option (Option Bytes × Nat))
  | none => found none
  | some _ => andThen (digits? size) fun ds => found (some ds)

/-- A fraction, if there is a point. -/
def fraction? (size : Nat) : Nat → Inspection (Option (Option Bytes × Nat)) :=
  andThen (front? size (· == Ascii.point)) (fractionBehind? size)

/-- A power of ten, behind its mark if there is one. -/
def exponentBehind? (size : Nat) :
    Option UInt8 → Nat → Inspection (Option (Option Exponent × Nat))
  | none => found none
  | some mark => andThen (front? size isSign) fun sign =>
      andThen (digits? size) fun ds => found (some ⟨mark, sign, ds⟩)

/-- A power of ten, if there is a mark. -/
def exponent? (size : Nat) : Nat → Inspection (Option (Option Exponent × Nat)) :=
  andThen (front? size isMark) (exponentBehind? size)

/-- The numeral at an index, and where it ends. -/
def numeral? (size : Nat) : Nat → Inspection (Option (Numeral × Nat)) :=
  andThen (front? size (· == Ascii.minus)) fun sign =>
    andThen (whole? size) fun whole =>
      andThen (fraction? size) fun fraction =>
        andThen (exponent? size) fun exponent => found ⟨sign.isSome, whole, fraction, exponent⟩

/-- The computation finds from an index on what the function finds at the front of what is left
there, and where what is left behind it begins. -/
def Finds (s : Slice) (p : Nat → Inspection (Option (α × Nat)))
    (scan : Bytes → Option (α × Bytes)) : Prop :=
  ∀ i, i ≤ s.size → ∃ r, Gives s (p i) r ∧
    scan (s.rest i) = r.map (fun found => (found.1, s.rest found.2)) ∧ ∀ found ∈ r, found.2 ≤ s.size

/-- A run of digits ends at a byte that is none, or at the end of the document. -/
theorem gives_digitRun (s : Slice) (remaining i : Nat) (h : s.size - i ≤ remaining) :
    Gives s (digitRun s.size remaining i) ((s.rest i).takeWhile Ascii.isDigit) := by
  induction remaining generalizing i with
  | zero =>
      have hrest : s.rest i = [] := by
        rw [← List.length_eq_zero_iff, Slice.length_rest]
        omega
      rw [hrest]
      exact .done _
  | succ n ih =>
      rw [digitRun]
      refine (gives_byte? s i).bind ?_
      cases hget : s.get? i with
      | none =>
          rw [Slice.rest_eq_nil_of_get? hget]
          exact .done _
      | some b =>
          rw [Slice.rest_eq_cons_of_get? hget, List.takeWhile_cons]
          dsimp only
          split
          · exact (ih (i + 1) (by omega)).map _
          · exact .done _

theorem finds_digits? (s : Slice) : Finds s (digits? s.size) Numeral.scanDigits := by
  intro i hi
  have hsplit : s.rest i = (s.rest i).takeWhile Ascii.isDigit ++ (s.rest i).dropWhile Ascii.isDigit :=
    List.takeWhile_append_dropWhile.symm
  have hback := Slice.rest_add_length hsplit
  have hlen : ((s.rest i).takeWhile Ascii.isDigit).length ≤ s.size - i := by
    rw [← Slice.length_rest]
    exact (List.takeWhile_prefix _).length_le
  refine ⟨_, (gives_digitRun s _ i (Nat.le_refl _)).map _, ?_, ?_⟩
  · rw [Numeral.scanDigits]
    cases hds : (s.rest i).takeWhile Ascii.isDigit with
    | nil => rfl
    | cons d ds =>
        rw [hds] at hback
        rw [← hback]
        rfl
  · intro found hmem
    split at hmem
    · cases hmem
    · obtain rfl := Option.some.inj hmem
      simp only
      omega

/-- The first byte if it passes the test, and what is left. -/
def frontOf (test : UInt8 → Bool) (bs : Bytes) : Option UInt8 × Bytes :=
  match bs with
  | [] => (none, [])
  | b :: rest => if test b then (some b, rest) else (none, b :: rest)

/-- One byte is looked at, and gone over if it passes the test. -/
theorem finds_front? (s : Slice) (test : UInt8 → Bool) :
    Finds s (front? s.size test) fun bs => some (frontOf test bs) := by
  intro i hi
  have hbyte := gives_byte? s i
  cases hget : s.get? i with
  | none =>
      rw [hget] at hbyte
      refine ⟨some (none, i), hbyte.bind (.done _), ?_, by simpa using hi⟩
      rw [Slice.rest_eq_nil_of_get? hget]
      simp [frontOf, Slice.rest_eq_nil_of_get? hget]
  | some b =>
      have hlt : i < s.size := Slice.lt_size_of_get? hget
      rw [hget] at hbyte
      refine ⟨_, hbyte.bind (.done _), ?_, ?_⟩
      · dsimp only
        rw [Slice.rest_eq_cons_of_get? hget, frontOf]
        split
        · rfl
        · rw [Option.map_some, Slice.rest_eq_cons_of_get? hget]
      · intro found hmem
        split at hmem
        · obtain rfl := Option.some.inj hmem
          exact hlt
        · obtain rfl := Option.some.inj hmem
          exact hi

/-- One byte is looked at, and must not pass the test. -/
theorem finds_refuse? (s : Slice) (test : UInt8 → Bool) :
    Finds s (refuse? s.size test) fun bs => if bs.head?.any test then none else some ((), bs) := by
  intro i hi
  have hbyte := gives_byte? s i
  cases hget : s.get? i with
  | none =>
      rw [hget] at hbyte
      refine ⟨some ((), i), hbyte.bind (.done _), ?_, by simpa using hi⟩
      simp [Slice.rest_eq_nil_of_get? hget]
  | some b =>
      rw [hget] at hbyte
      refine ⟨_, hbyte.bind (.done _), ?_, ?_⟩
      · dsimp only
        rw [Slice.rest_eq_cons_of_get? hget, List.head?_cons, Option.any_some]
        split
        · rfl
        · rw [Option.map_some, Slice.rest_eq_cons_of_get? hget]
      · split
        · simp
        · simpa using hi

/-- What has been found needs no further look. -/
theorem finds_found (s : Slice) (a : α) : Finds s (found a) fun bs => some (a, bs) :=
  fun i hi => ⟨some (a, i), .done _, rfl, by simpa using hi⟩

/-- One thing is found, and then another in what is left behind it. -/
theorem Finds.andThen {s : Slice} {p : Nat → Inspection (Option (α × Nat))}
    {q : α → Nat → Inspection (Option (β × Nat))} {scan : Bytes → Option (α × Bytes)}
    {scan' : α → Bytes → Option (β × Bytes)} {both : Bytes → Option (β × Bytes)}
    (hp : Finds s p scan) (hq : ∀ a, Finds s (q a) (scan' a))
    (hboth : ∀ bs, both bs = (scan bs).bind fun found => scan' found.1 found.2) :
    Finds s (andThen p q) both := by
  intro i hi
  obtain ⟨r, hr, hscan, hle⟩ := hp i hi
  rw [hboth, hscan]
  cases r with
  | none => exact ⟨none, hr.bind (.done _), rfl, by simp⟩
  | some found =>
      obtain ⟨r', hr', hscan', hle'⟩ := hq found.1 found.2 (hle found rfl)
      exact ⟨r', hr.bind hr', hscan', hle'⟩

/-! What stands at the front decides how a part of a number is read on. -/

/-- The digits before the point, behind a zero if there is one. -/
def wholeBehind : Option UInt8 → Bytes → Option (Bytes × Bytes)
  | none, bs => Numeral.scanDigits bs
  | some z, bs => if bs.head?.any Ascii.isDigit then none else some ([z], bs)

/-- A fraction, behind its point if there is one. -/
def fractionBehind : Option UInt8 → Bytes → Option (Option Bytes × Bytes)
  | none, bs => some (none, bs)
  | some _, bs => (Numeral.scanDigits bs).bind fun ds => some (some ds.1, ds.2)

/-- A power of ten, behind its mark if there is one. -/
def exponentBehind : Option UInt8 → Bytes → Option (Option Exponent × Bytes)
  | none, bs => some (none, bs)
  | some mark, bs => (Numeral.scanDigits (frontOf isSign bs).2).bind fun ds =>
      some (some ⟨mark, (frontOf isSign bs).1, ds.1⟩, ds.2)

/-- The whole part is told by whether a zero is at the front. -/
theorem scanWhole_eq (bs : Bytes) : Numeral.scanWhole bs =
    wholeBehind (frontOf (· == Ascii.zero) bs).1 (frontOf (· == Ascii.zero) bs).2 := by
  cases bs with
  | nil => rfl
  | cons b bs =>
      rw [Numeral.scanWhole, frontOf]
      by_cases hzero : b = Ascii.zero
      · subst hzero
        have hdigit : Ascii.isDigit Ascii.zero = true := by decide
        rw [Numeral.scanDigits, List.takeWhile_cons_of_pos hdigit, List.dropWhile_cons_of_pos hdigit]
        cases bs with
        | nil => rfl
        | cons c bs =>
            cases hc : Ascii.isDigit c with
            | false => simp [wholeBehind, hc]
            | true => simp [wholeBehind, hc]
      · rw [if_neg (by simpa using hzero), wholeBehind]
        cases hds : Numeral.scanDigits (b :: bs) with
        | none => rfl
        | some found =>
            -- the digits begin with the byte at the front, which is no zero
            obtain ⟨hdigits, hsplit, -⟩ := Numeral.scanDigits_eq_some_iff.mp hds
            obtain ⟨d, ds, hcons, -⟩ := hdigits.exists_cons
            rw [hcons, List.cons_append, List.cons.injEq] at hsplit
            have hhead : found.1.head? ≠ some Ascii.zero := by
              rw [hcons, List.head?_cons, ← hsplit.1]
              simpa using hzero
            exact if_neg fun h => hhead h.1

/-- The fraction is told by whether a point is at the front. -/
theorem scanFraction_eq (bs : Bytes) : Numeral.scanFraction bs =
    fractionBehind (frontOf (· == Ascii.point) bs).1 (frontOf (· == Ascii.point) bs).2 := by
  cases bs with
  | nil => rfl
  | cons b bs =>
      rw [Numeral.scanFraction, frontOf]
      cases b == Ascii.point with
      | false => rfl
      | true => exact Option.map_eq_bind

theorem scanSign_eq (bs : Bytes) : Numeral.scanSign bs = frontOf isSign bs := by
  cases bs <;> rfl

/-- The power of ten is told by whether a mark is at the front. -/
theorem scanExponent_eq (bs : Bytes) : Numeral.scanExponent bs =
    exponentBehind (frontOf isMark bs).1 (frontOf isMark bs).2 := by
  cases bs with
  | nil => rfl
  | cons b bs =>
      rw [Numeral.scanExponent, frontOf, isMark]
      cases b == 'e'.toUInt8 || b == 'E'.toUInt8 with
      | false => rfl
      | true =>
          rw [scanSign_eq]
          exact Option.map_eq_bind

/-- The sign is told by whether a minus is at the front. -/
theorem scanMinus_eq (bs : Bytes) : Numeral.scanMinus bs =
    ((frontOf (· == Ascii.minus) bs).1.isSome, (frontOf (· == Ascii.minus) bs).2) := by
  cases bs with
  | nil => rfl
  | cons b bs =>
      rw [Numeral.scanMinus, frontOf]
      cases b == Ascii.minus with
      | false => rfl
      | true => rfl

/-- Behind a zero at the front no digit is found, and without one the digits are. -/
theorem finds_wholeBehind? (s : Slice) :
    ∀ z, Finds s (wholeBehind? s.size z) (wholeBehind z)
  | none => finds_digits? s
  | some z => by
      refine (finds_refuse? s _).andThen (fun _ => finds_found s [z]) fun bs => ?_
      rw [wholeBehind]
      split <;> rfl

/-- Behind a point digits are found. -/
theorem finds_fractionBehind? (s : Slice) :
    ∀ b, Finds s (fractionBehind? s.size b) (fractionBehind b)
  | none => finds_found s none
  | some _ => (finds_digits? s).andThen (fun ds => finds_found s (some ds)) fun _ => rfl

/-- Behind a mark a sign and digits are found. -/
theorem finds_exponentBehind? (s : Slice) :
    ∀ b, Finds s (exponentBehind? s.size b) (exponentBehind b)
  | none => finds_found s none
  | some mark => by
      have digits : ∀ sign, Finds s
          (andThen (digits? s.size) fun ds => found (some (⟨mark, sign, ds⟩ : Exponent)))
          fun bs => (Numeral.scanDigits bs).bind fun ds => some (some ⟨mark, sign, ds.1⟩, ds.2) :=
        fun sign => (finds_digits? s).andThen (fun ds => finds_found s _) fun _ => rfl
      exact (finds_front? s isSign).andThen digits fun _ => rfl

theorem finds_whole? (s : Slice) : Finds s (whole? s.size) Numeral.scanWhole :=
  (finds_front? s _).andThen (finds_wholeBehind? s) scanWhole_eq

theorem finds_fraction? (s : Slice) : Finds s (fraction? s.size) Numeral.scanFraction :=
  (finds_front? s _).andThen (finds_fractionBehind? s) scanFraction_eq

theorem finds_exponent? (s : Slice) : Finds s (exponent? s.size) Numeral.scanExponent :=
  (finds_front? s _).andThen (finds_exponentBehind? s) scanExponent_eq

/-- **A number is found as it is read.** -/
theorem finds_numeral? (s : Slice) : Finds s (numeral? s.size) Numeral.scan := by
  refine (finds_front? s _).andThen (fun sign => (finds_whole? s).andThen (fun whole =>
    (finds_fraction? s).andThen (fun fraction => (finds_exponent? s).andThen (fun exponent =>
      finds_found s (⟨sign.isSome, whole, fraction, exponent⟩ : Numeral)) fun _ => rfl)
      fun _ => rfl) fun _ => rfl) fun bs => ?_
  rw [Numeral.scan_eq, scanMinus_eq]
  rfl

/-- The numeral at an index, and where it ends, is found. -/
theorem gives_numeral? (s : Slice) {i : Nat} (hi : i ≤ s.size) :
    Gives s (numeral? s.size i) (Reader.numeralAt s i) := by
  obtain ⟨r, hr, hscan, hle⟩ := finds_numeral? s i hi
  cases r with
  | none =>
      have hnone : Reader.numeralAt s i = none := by
        rw [Option.eq_none_iff_forall_not_mem]
        rintro ⟨n, stop⟩ hn
        obtain ⟨hp, ⟨rest, hrest, hends⟩, -⟩ := Numeral.numeralAt_eq_some_iff.mp hn
        rw [Numeral.scan_eq_some_iff.mpr ⟨hp, hrest, hends⟩] at hscan
        cases hscan
      rw [hnone]
      exact hr
  | some found =>
      obtain ⟨n, j⟩ := found
      obtain ⟨hp, hrest, hends⟩ := Numeral.scan_eq_some_iff.mp hscan
      -- the numeral ends where what is left behind it begins
      have hj : j = i + n.text.length := by
        have hlen : (s.rest i).length = (n.text ++ s.rest j).length := congrArg List.length hrest
        have hle : j ≤ s.size := hle _ rfl
        rw [Slice.length_rest, List.length_append, Slice.length_rest] at hlen
        omega
      rw [Numeral.numeralAt_eq_some_iff.mpr ⟨hp, ⟨_, hrest, hends⟩, hj⟩]
      exact hr

end Inspection

end JsonTree
