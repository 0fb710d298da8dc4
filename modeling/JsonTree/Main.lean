import JsonTree.CommandLine

/-!
# The program

Opens files, prints what the command line leaves behind, and ends with its status.
-/

open JsonTree

/-- The content of a file, if it can be read. -/
def openFile (path : Bytes) : IO (Option ByteArray) := do
  match String.fromUTF8? ⟨path.toArray⟩ with
  | none => return none
  | some path =>
    try
      return some (← IO.FS.readBinFile path)
    catch _ =>
      return none

/-- Runs the tool. -/
def main (args : List String) : IO UInt32 := do
  match ← CommandLine.run openFile (args.map Bytes.ofString) with
  | .error e =>
    IO.eprintln e.message
    return 134
  | .ok outcome =>
    (← IO.getStdout).write ⟨outcome.stdout.toArray⟩
    (← IO.getStderr).write ⟨outcome.stderr.toArray⟩
    return outcome.status.toUInt32
