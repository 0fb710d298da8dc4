import JsonTree.Parse
import JsonTree.Write

/-!
# The command line

The tool checks files.  Given one file it tells whether the file holds a document, and writes the
value or counts its strings if asked to; given a list of files it marks each as good or bad.  The
exit status is 0 for a document, 1 for a file that is none, and 2 for a file that cannot be read or
is empty; for a list it is the worst of its files.

How files are opened is left to the caller.
-/

namespace JsonTree

namespace CommandLine

/-- What to do with a document that has been read. -/
structure Settings where
  read : ReadOptions := {}
  /-- Write the value in the compact layout. -/
  dump : Bool := false
  /-- Write the value in the pretty layout. -/
  pretty : Bool := false
  /-- Count the strings of the value. -/
  stats : Bool := false

/-- What to check. -/
inductive Subject where
  /-- One file. -/
  | file (path : Bytes)
  /-- The files named in a file, one on each line. -/
  | list (path : Bytes)

/-- What a run leaves behind. -/
structure Outcome where
  status : Nat := 0
  stdout : Bytes := []
  stderr : Bytes := []
  deriving DecidableEq

/-! ### Arguments -/

/-- The arguments read so far. -/
structure Arguments where
  settings : Settings := {}
  list : Option Bytes := none
  file : Option Bytes := none

/-- The settings with what an option asks for; `none` when there is no such option. -/
def Settings.option? (s : Settings) (arg : Bytes) : Option Settings :=
  if arg == Bytes.ofString "--dump" then some { s with dump := true }
  else if arg == Bytes.ofString "--pretty" then some { s with pretty := true }
  else if arg == Bytes.ofString "--stats" then some { s with stats := true }
  else if arg == Bytes.ofString "--inf-nan" then
    some { s with read := { s.read with allowNonFinite := true } }
  else none

/-- An argument that names a file: it is not empty and does not look like an option. -/
def namesFile (arg : Bytes) : Bool :=
  !arg.isEmpty && arg.head? != some Ascii.minus

/-- Reads the arguments; `none` when one is not understood.  A list may be named again, a file may
not. -/
def readArguments (a : Arguments) : List Bytes → Option Arguments
  | [] => some a
  | arg :: rest =>
    if arg == Bytes.ofString "--list" then
      match rest with
      | [] => none
      | path :: rest => readArguments { a with list := some path } rest
    else
      match a.settings.option? arg with
      | some settings => readArguments { a with settings } rest
      | none =>
        if namesFile arg && a.file.isNone then readArguments { a with file := some arg } rest
        else none

/-- What the arguments ask for: a file or a list, not both. -/
def Arguments.subject? (a : Arguments) : Option Subject :=
  match a.list, a.file with
  | some path, none => some (.list path)
  | none, some path => some (.file path)
  | _, _ => none

/-- How the tool is to be called. -/
def usage : Bytes :=
  Bytes.ofString
    "usage: cowjson_parse_file [--dump|--pretty] [--stats] [--inf-nan] <file.json>\n" ++
  Bytes.ofString "       cowjson_parse_file [--inf-nan] --list <paths.txt>\n"

/-! ### One file -/

/-- The counts of a census in words. -/
def statsLine (c : Census) : Bytes :=
  Bytes.ofString "borrowed=" ++ Bytes.decimal c.borrowed ++
    Bytes.ofString " (" ++ Bytes.decimal c.borrowedBytes ++
    Bytes.ofString " bytes) owned=" ++ Bytes.decimal c.owned ++
    Bytes.ofString " (" ++ Bytes.decimal c.ownedBytes ++ Bytes.ofString " bytes)\n"

/-- The text of a value on a line of its own, if the settings ask for it. -/
def dumpLine (settings : Settings) (v : Value) : Except WriteError Bytes :=
  if settings.dump || settings.pretty then
    let layout := if settings.pretty then Layout.pretty else Layout.compact
    (v.write { layout, allowNonFinite := settings.read.allowNonFinite }).map
      (· ++ [Ascii.newline])
  else .ok []

/-- What the settings ask for about a value. -/
def answer (settings : Settings) (v : Value) : Except WriteError Bytes :=
  (dumpLine settings v).map fun text =>
    text ++ (if settings.stats then statsLine v.census else [])

/-- Checks the content of a file, which is missing when the file cannot be read; only the status is
of interest unless the check is to be reported. -/
def check (settings : Settings) (path : Bytes) (content : Option ByteArray) (report : Bool) :
    Except WriteError Outcome :=
  let content := content.getD .empty
  if content.size = 0 then
    let message :=
      Bytes.ofString "failed to read file or file is empty: " ++ path ++ [Ascii.newline]
    .ok { status := 2, stderr := if report then message else [] }
  else
    let source := Slice.ofMemory 0 content
    let parsed := JsonTree.parse source settings.read
    match parsed.fault with
    | some e =>
      let message :=
        Bytes.ofString "parse failed: " ++ path ++ Bytes.ofString "\n  " ++
          e.describe source.bytes ++ [Ascii.newline]
      .ok { status := 1, stderr := if report then message else [] }
    | none =>
      if report then (answer settings parsed.value).map fun text => { stdout := text }
      else .ok {}

/-! ### A list of files -/

/-- The lines of a text, the newlines left out; `line` is the beginning of the first, its last byte
first. -/
def lines (line : Bytes) : Bytes → List Bytes
  | [] => [line.reverse]
  | b :: bs => if b == Ascii.newline then line.reverse :: lines [] bs else lines (b :: line) bs

/-- What has been found in the files of a list so far. -/
structure Tally where
  /-- Some file is no document, or cannot be read. -/
  someFailed : Bool := false
  /-- Some file cannot be read or is empty. -/
  someUnreadable : Bool := false
  /-- The lines written. -/
  text : Output := .empty

namespace Tally

/-- Notes the status of one more file. -/
def note (t : Tally) (path : Bytes) (status : Nat) : Tally :=
  if status = 0 then
    { t with text := t.text.append (path ++ Bytes.ofString "\tOK\n") }
  else
    { someFailed := true
      someUnreadable := t.someUnreadable || status == 2
      text := t.text.append (path ++ Bytes.ofString "\tFAIL\n") }

/-- The status and the lines of the whole list. -/
def outcome (t : Tally) : Outcome :=
  { status := if t.someUnreadable then 2 else if t.someFailed then 1 else 0
    stdout := t.text.bytes }

end Tally

section Run

variable {m : Type → Type} [Monad m]

/-- Checks the files with the given names; a name ends at its first zero byte. -/
def checkAll (openFile : Bytes → m (Option ByteArray)) (settings : Settings) (t : Tally) :
    List Bytes → m (Except WriteError Tally)
  | [] => pure (.ok t)
  | path :: rest =>
    if path.isEmpty then checkAll openFile settings t rest
    else do
      let name := path.untilZero
      let content ← openFile name
      match check settings name content false with
      | .error e => pure (.error e)
      | .ok outcome => checkAll openFile settings (t.note path outcome.status) rest

/-- Checks the files that a file names. -/
def runList (openFile : Bytes → m (Option ByteArray)) (settings : Settings) (path : Bytes) :
    m (Except WriteError Outcome) := do
  match ← openFile path with
  | none =>
    let message := Bytes.ofString "failed to read list file: " ++ path ++ [Ascii.newline]
    return .ok { status := 2, stderr := message }
  | some content =>
    let tally ← checkAll openFile settings {} (lines [] content.data.toList)
    return tally.map Tally.outcome

/-- Runs the tool on its arguments. -/
def run (openFile : Bytes → m (Option ByteArray)) (args : List Bytes) :
    m (Except WriteError Outcome) :=
  match readArguments {} args with
  | none => pure (.ok { status := 2, stderr := usage })
  | some a =>
    match a.subject? with
    | none => pure (.ok { status := 2, stderr := usage })
    | some (.list path) => runList openFile a.settings path
    | some (.file path) => do return check a.settings path (← openFile path) true

end Run

end CommandLine

end JsonTree
