import JsonTree.CommandLine
import JsonTree.Proofs.RoundTrip

/-!
# Verdicts — one file and a list of files

A file is checked on its own, and then what was asked for is written of it, or as one of a list, and
then it is only marked.  Both find the same: the `verdict` on its content.  The files hold the same
content throughout (`runOn`).

* `exists_check`: a check that is reported always comes to an end, for what has been read can be
  written.
* `checkAll_eq`: the files of a list are noted one by one.
* `list_agrees_with_single_files`: the marks and the status of a list are those of its files.
-/

namespace JsonTree.CommandLine

open Ascii

/-! ### Options -/

/-- An option that says what to do with a document. -/
inductive Flag where
  | dump
  | pretty
  | stats
  | nonFinite
  deriving DecidableEq

namespace Flag

/-- The argument. -/
def text : Flag → Bytes
  | dump => Bytes.ofString "--dump"
  | pretty => Bytes.ofString "--pretty"
  | stats => Bytes.ofString "--stats"
  | nonFinite => Bytes.ofString "--inf-nan"

/-- The settings with what the option asks for. -/
def set (s : Settings) (f : Flag) : Settings :=
  match f with
  | dump => { s with dump := true }
  | pretty => { s with pretty := true }
  | stats => { s with stats := true }
  | nonFinite => { s with read := { s.read with allowNonFinite := true } }

/-- What options ask for together. -/
def settings (flags : List Flag) : Settings where
  read := { allowNonFinite := flags.contains nonFinite }
  dump := flags.contains dump
  pretty := flags.contains pretty
  stats := flags.contains stats

theorem option?_text (s : Settings) (f : Flag) : s.option? f.text = some (set s f) := by
  cases f <;> rfl

/-- No flag is spelt like the option for a list. -/
theorem text_ne_list (f : Flag) : (f.text == Bytes.ofString "--list") = false := by
  cases f <;> decide

/-- One more option in front asks for what it asks for on top. -/
theorem settings_append_singleton (flags : List Flag) (f : Flag) :
    settings (flags ++ [f]) = set (settings flags) f := by
  cases f <;> simp [settings, set]

/-- Setting flags one by one gives their settings. -/
theorem foldl_set (flags : List Flag) : flags.foldl set {} = settings flags := by
  induction flags using List.reverseRecOn with
  | nil => rfl
  | append_singleton flags f ih =>
      rw [List.foldl_append, ih, settings_append_singleton]
      rfl

end Flag

/-! ### Arguments -/

theorem readArguments_list (a : Arguments) (path : Bytes) (rest : List Bytes) :
    readArguments a (Bytes.ofString "--list" :: path :: rest) =
      readArguments { a with list := some path } rest := by
  rw [readArguments.eq_def]
  exact if_pos rfl

/-- An argument other than the one that names a list is an option or names a file. -/
theorem readArguments_cons {arg : Bytes} (h : (arg == Bytes.ofString "--list") = false)
    (a : Arguments) (rest : List Bytes) :
    readArguments a (arg :: rest) =
      match a.settings.option? arg with
      | some settings => readArguments { a with settings } rest
      | none =>
        if namesFile arg && a.file.isNone then readArguments { a with file := some arg } rest
        else none := by
  rw [readArguments.eq_def]
  exact if_neg (by simp [h])

/-- Flags before the rest of a command line change the settings only. -/
theorem readArguments_flags (flags : List Flag) (a : Arguments) (rest : List Bytes) :
    readArguments a (flags.map Flag.text ++ rest) =
      readArguments { a with settings := flags.foldl Flag.set a.settings } rest := by
  induction flags generalizing a with
  | nil => rfl
  | cons f flags ih =>
      rw [List.map_cons, List.cons_append, readArguments_cons f.text_ne_list, f.option?_text]
      exact ih { a with settings := Flag.set a.settings f }

/-- What names a file is no option. -/
theorem of_namesFile {path : Bytes} (h : namesFile path = true) :
    (path == Bytes.ofString "--list") = false ∧ ∀ s : Settings, s.option? path = none := by
  have hother : ∀ text : Bytes, text.head? = some minus → (path == text) = false := by
    intro text htext
    refine beq_eq_false_iff_ne.mpr fun hpath => ?_
    rw [namesFile, hpath, htext] at h
    simp at h
  refine ⟨hother _ (by decide), fun s => ?_⟩
  rw [Settings.option?, hother _ (by decide), hother _ (by decide), hother _ (by decide),
    hother _ (by decide)]
  rfl

/-! ### Runs -/

/-- What the tool leaves behind where the files hold what they hold throughout. -/
def runOn (files : Bytes → Option ByteArray) (args : List Bytes) : Except WriteError Outcome :=
  Id.run (run (m := Id) files args)

/-- A command line of flags and one file checks the file. -/
theorem runOn_file (files : Bytes → Option ByteArray) (flags : List Flag) {path : Bytes}
    (h : namesFile path = true) :
    runOn files (flags.map Flag.text ++ [path]) =
      check (Flag.settings flags) path (files path) true := by
  obtain ⟨hlist, hoption⟩ := of_namesFile h
  have hread : readArguments {} (flags.map Flag.text ++ [path]) =
      some { settings := Flag.settings flags, file := some path } := by
    rw [readArguments_flags, Flag.foldl_set, readArguments_cons hlist, hoption]
    simp [h, readArguments]
  rw [runOn, run, hread]
  rfl

theorem runOn_list (files : Bytes → Option ByteArray) (front back : List Flag) (path : Bytes) :
    runOn files (front.map Flag.text ++ Bytes.ofString "--list" :: path :: back.map Flag.text) =
      Id.run (runList (m := Id) files (Flag.settings (front ++ back)) path) := by
  have hread : readArguments {} (front.map Flag.text ++ Bytes.ofString "--list" :: path ::
      back.map Flag.text) =
      some { settings := Flag.settings (front ++ back), list := some path } := by
    have hback := readArguments_flags back
      { settings := front.foldl Flag.set {}, list := some path } []
    rw [List.append_nil] at hback
    rw [readArguments_flags, readArguments_list, hback, ← List.foldl_append, Flag.foldl_set]
    rfl
  rw [runOn, run, hread]
  rfl

/-! ### One file -/

/-- What the content of a file is found to be: 0 for a document, 1 for none, 2 where there is
nothing to read. -/
def verdict (options : ReadOptions) (content : Option ByteArray) : Nat :=
  match content with
  | none => 2
  | some bytes =>
    if bytes.size = 0 then 2
    else if (parse (.ofMemory 0 bytes) options).fault.isSome then 1
    else 0

/-- A file's status is at most two. -/
theorem verdict_le (options : ReadOptions) (content : Option ByteArray) :
    verdict options content ≤ 2 := by
  unfold verdict
  repeat' split
  all_goals decide

/-- A file that cannot be read counts as an empty one. -/
theorem verdict_eq (options : ReadOptions) (content : Option ByteArray) :
    verdict options content =
      if (content.getD .empty).size = 0 then 2
      else if (parse (.ofMemory 0 (content.getD .empty)) options).fault.isSome then 1
      else 0 := by
  cases content with
  | none => rfl
  | some bytes => rfl

/-- **Whatever is asked for of a value that has been read can be written.** -/
theorem exists_answer {settings : Settings} {source : Slice} {v : Value}
    (h : parse source settings.read = ⟨v, none⟩) : ∃ text, answer settings v = .ok text := by
  have hwrite : ∀ layout, v.write ⟨layout, settings.read.allowNonFinite⟩ =
      .ok (v.render layout 0) := fun layout =>
    Value.write_eq_ok_iff.mpr ⟨(fit_of_parse h).1.mono fun _ hu => hu.allowed, rfl⟩
  have hdump : ∃ text, dumpLine settings v = .ok text := by
    rw [dumpLine]
    split
    · exact ⟨_, congrArg (Except.map _) (hwrite _)⟩
    · exact ⟨[], rfl⟩
  obtain ⟨text, htext⟩ := hdump
  exact ⟨_, congrArg (Except.map _) htext⟩

/-- **A check that is reported comes to an end**, with the verdict as its status. -/
theorem exists_check (settings : Settings) (path : Bytes) (content : Option ByteArray) :
    ∃ outcome, check settings path content true = .ok outcome ∧
      outcome.status = verdict settings.read content := by
  rw [check, verdict_eq]
  dsimp only
  split
  · exact ⟨_, rfl, rfl⟩
  · cases hparse : parse (.ofMemory 0 (content.getD .empty)) settings.read with
    | mk v fault =>
        cases fault with
        | some e => exact ⟨_, rfl, rfl⟩
        | none =>
            obtain ⟨text, htext⟩ := exists_answer hparse
            exact ⟨{ stdout := text }, congrArg (Except.map _) htext, rfl⟩

/-- A check that is not reported leaves nothing but its status. -/
theorem check_quiet (settings : Settings) (path : Bytes) (content : Option ByteArray) :
    check settings path content false = .ok { status := verdict settings.read content } := by
  rw [check, verdict_eq]
  dsimp only
  split
  · rfl
  · cases (parse (.ofMemory 0 (content.getD .empty)) settings.read).fault <;> rfl

/-! ### A list of files -/

theorem lines_eq_splitOnPPrepend (line bs : Bytes) :
    lines line bs = bs.splitOnPPrepend (· == newline) line := by
  induction bs generalizing line with
  | nil => rfl
  | cons b bs ih =>
      rw [lines, List.splitOnPPrepend_cons_eq_if, ih, ih, List.splitOnPPrepend_nil_right]

/-- The lines of a text are what stands between its newlines. -/
theorem lines_eq (bs : Bytes) : lines [] bs = bs.splitOn newline :=
  lines_eq_splitOnPPrepend [] bs

/-- The paths that a list holds: its lines, those without a byte left out. -/
def listed (content : ByteArray) : List Bytes :=
  (content.data.toList.splitOn newline).filter fun line => !line.isEmpty

/-- The verdict on the file that a line of a list names; a name ends at its first zero byte. -/
def verdictOn (files : Bytes → Option ByteArray) (options : ReadOptions) (line : Bytes) : Nat :=
  verdict options (files line.untilZero)

/-- The line written for a path. -/
def mark (path : Bytes) (status : Nat) : Bytes :=
  path ++ if status = 0 then Bytes.ofString "\tOK\n" else Bytes.ofString "\tFAIL\n"

namespace Tally

/-- **What one more file adds**: the worse of two statuses, and a line. -/
theorem outcome_note (t : Tally) (path : Bytes) {status : Nat} (h : status ≤ 2) :
    (t.note path status).outcome =
      { t.outcome with
        status := max t.outcome.status status
        stdout := t.outcome.stdout ++ mark path status } := by
  obtain rfl | rfl | rfl : status = 0 ∨ status = 1 ∨ status = 2 := by omega
  · simp [note, outcome, mark]
  · cases hu : t.someUnreadable <;> cases hf : t.someFailed <;> simp [note, outcome, mark, hu, hf]
  · cases hf : t.someFailed <;> cases hu : t.someUnreadable <;> simp [note, outcome, mark, hu, hf]

/-- What a list of files adds. -/
theorem outcome_foldl_note {status : Bytes → Nat} (h : ∀ path, status path ≤ 2)
    (paths : List Bytes) (t : Tally) :
    (paths.foldl (fun t path => t.note path (status path)) t).outcome =
      { t.outcome with
        status := (paths.map status).foldl max t.outcome.status
        stdout := t.outcome.stdout ++ paths.flatMap fun path => mark path (status path) } := by
  induction paths generalizing t with
  | nil => simp
  | cons path paths ih =>
      rw [List.foldl_cons, ih, outcome_note t path (h path)]
      simp

end Tally

/-- **The files of a list are noted one by one**, those with an empty name left out. -/
theorem checkAll_eq (files : Bytes → Option ByteArray) (settings : Settings) (paths : List Bytes)
    (t : Tally) :
    Id.run (checkAll (m := Id) files settings t paths) =
      .ok ((paths.filter fun path => !path.isEmpty).foldl
        (fun t path => t.note path (verdictOn files settings.read path)) t) := by
  induction paths generalizing t with
  | nil => rfl
  | cons path paths ih =>
      rw [checkAll]
      split
      · next hempty => rw [ih, List.filter_cons_of_neg (by simp [hempty])]
      · next hempty =>
          rw [List.filter_cons_of_pos (by simpa using hempty), List.foldl_cons, ← ih]
          simp only [Id.run, bind, check_quiet, verdictOn]

/-- A list that can be read is gone through line by line. -/
theorem runList_eq {files : Bytes → Option ByteArray} {path : Bytes} {content : ByteArray}
    (h : files path = some content) (settings : Settings) :
    Id.run (runList (m := Id) files settings path) =
      .ok {
        status := ((listed content).map (verdictOn files settings.read)).foldl max 0
        stdout := (listed content).flatMap fun line =>
          mark line (verdictOn files settings.read line) } := by
  have hall := checkAll_eq files settings (lines [] content.data.toList) {}
  have houtcome := Tally.outcome_foldl_note
    (fun line => verdict_le settings.read (files line.untilZero)) (listed content) {}
  rw [lines_eq] at hall
  have hrun : Id.run (runList (m := Id) files settings path) =
      (Id.run (checkAll (m := Id) files settings {} (lines [] content.data.toList))).map
        Tally.outcome := by
    rw [runList]
    simp only [bind, h]
    rfl
  rw [hrun, lines_eq, hall]
  exact congrArg Except.ok houtcome

/-- **No run ends in a failure to write.** -/
theorem exists_runOn (files : Bytes → Option ByteArray) (args : List Bytes) :
    ∃ outcome, runOn files args = .ok outcome := by
  rw [runOn, run]
  split
  · exact ⟨_, rfl⟩
  next a _ =>
    split
    · exact ⟨_, rfl⟩
    next path _ =>
      cases hfile : files path with
      | none =>
          rw [runList]
          simp only [bind, hfile]
          exact ⟨_, rfl⟩
      | some content => exact ⟨_, runList_eq hfile a.settings⟩
    next path _ =>
      obtain ⟨outcome, houtcome, -⟩ := exists_check a.settings path (files path)
      exact ⟨outcome, houtcome⟩

/-- **A list of files agrees with its files.**  Let the files hold what they hold throughout.  Then
no run of the tool ends in a failure to write, whatever its arguments; and given options and a file,
it checks the file and reports the check.  Given options and a list that can be read, it writes a
line for each line of the list that is not empty, in order, which marks the file as good exactly
when its status is 0; and it ends with the greatest status, 0 if there are none.  The status of a
file is 0 for a document, 1 for none, and 2 where there is nothing to read; and a check of the file
that is reported comes to it, under any options that agree with those of the list on numbers that
are not finite. -/
theorem list_agrees_with_single_files (files : Bytes → Option ByteArray) :
    (∀ args, ∃ outcome, runOn files args = .ok outcome) ∧
    (∀ (flags : List Flag) (path : Bytes), namesFile path = true →
      runOn files (flags.map Flag.text ++ [path]) =
        check (Flag.settings flags) path (files path) true) ∧
    ∀ front back : List Flag,
      let status := verdictOn files { allowNonFinite := (front ++ back).contains .nonFinite }
      (∀ (flags : List Flag) (line : Bytes), (.nonFinite ∈ flags ↔ .nonFinite ∈ front ++ back) →
        ∃ outcome, check (Flag.settings flags) line.untilZero (files line.untilZero) true =
          .ok outcome ∧ outcome.status = status line) ∧
      ∀ (path : Bytes) (content : ByteArray), files path = some content →
        runOn files (front.map Flag.text ++ Bytes.ofString "--list" :: path :: back.map Flag.text) =
          .ok {
            status := ((listed content).map status).foldl max 0
            stdout := (listed content).flatMap fun line => line ++
              if status line = 0 then Bytes.ofString "\tOK\n" else Bytes.ofString "\tFAIL\n" } := by
  refine ⟨exists_runOn files, fun flags path h => runOn_file files flags h, fun front back =>
    ⟨fun flags line hflags => ?_, fun path content h => ?_⟩⟩
  · have hsame : flags.contains .nonFinite = (front ++ back).contains .nonFinite := by
      rw [Bool.eq_iff_iff, List.contains_iff_mem, List.contains_iff_mem, hflags]
    rw [verdictOn, ← hsame]
    exact exists_check _ _ _
  · rw [runOn_list]
    exact runList_eq h _

/-- Three files: a number that is not finite, a word cut short, and a list that names them, with an
empty line between them and a file that is missing behind. -/
def threeFiles (path : Bytes) : Option ByteArray :=
  if path = Bytes.ofString "a" then some ⟨(Bytes.ofString "[NaN]").toArray⟩
  else if path = Bytes.ofString "b" then some ⟨(Bytes.ofString "nul").toArray⟩
  else if path = Bytes.ofString "l" then some ⟨(Bytes.ofString "a\n\nb\nc\n").toArray⟩
  else none

theorem list_agrees_with_single_files_threeFiles :
    threeFiles (Bytes.ofString "l") = some ⟨(Bytes.ofString "a\n\nb\nc\n").toArray⟩ ∧
    runOn threeFiles [Bytes.ofString "--list", Bytes.ofString "l", Bytes.ofString "--inf-nan"] =
      .ok { status := 2, stdout := Bytes.ofString "a\tOK\nb\tFAIL\nc\tFAIL\n" } ∧
    namesFile (Bytes.ofString "a") = true ∧
    (∃ outcome, runOn threeFiles [Bytes.ofString "--dump", Bytes.ofString "--inf-nan",
      Bytes.ofString "a"] = .ok outcome ∧ outcome.status = 0) ∧
    ∃ outcome, runOn threeFiles [Bytes.ofString "a"] = .ok outcome := by
  obtain ⟨hruns, hfile, hlist⟩ := list_agrees_with_single_files threeFiles
  obtain ⟨hsingle, hlisted⟩ := hlist [] [.nonFinite]
  have hl : threeFiles (Bytes.ofString "l") = some ⟨(Bytes.ofString "a\n\nb\nc\n").toArray⟩ := rfl
  refine ⟨hl, (hlisted _ _ hl).trans ?_, rfl, ?_, hruns _⟩
  · decide +kernel
  · obtain ⟨outcome, hcheck, hstatus⟩ := hsingle [.dump, .nonFinite] (Bytes.ofString "a") (by decide)
    exact ⟨outcome, (hfile [.dump, .nonFinite] (Bytes.ofString "a") rfl).trans hcheck,
      hstatus.trans (by decide +kernel)⟩

end JsonTree.CommandLine
