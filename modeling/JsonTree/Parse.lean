import JsonTree.Error.Excerpt
import JsonTree.Reader.Progress
import JsonTree.Value.Owned

/-!
# Reading a whole document

A document is one value with blanks around it.  `parse` answers the value together with the error
record: the value is null when there is an error.  `parseOwned` answers a value without views of
the document, and `parseStrict` answers either a value or a failure, whose message is a text for
readers that stop at a zero byte.
-/

namespace JsonTree

/-- A value, which is null when an error has been recorded. -/
structure Parsed where
  value : Value := .null
  fault : Fault := none

/-- Reads a document; its strings without escapes become views. -/
def parse (source : Slice) (options : ReadOptions) : Parsed :=
  let (value, s) := Reader.build options.maxDepth (Reader.start source options)
  if s.failed then { fault := s.fault }
  else
    let (ended, s) := Reader.finish s
    if ended then { value, fault := s.fault } else { fault := s.fault }

/-- Reads a document; all strings of the value are copies. -/
def parseOwned (source : Slice) (options : ReadOptions) : Parsed :=
  let parsed := parse source options
  match parsed.fault with
  | none => { parsed with value := parsed.value.toOwned }
  | some _ => parsed

/-- An error and the document it was found in. -/
structure ParseFailure where
  error : Error
  source : Bytes

namespace ParseFailure

/-- The error in words, under the name of the tool. -/
def fullMessage (f : ParseFailure) : Bytes :=
  Bytes.ofString "cowjson: " ++ f.error.describe f.source

/-- The message as a text that ends at its first zero byte. -/
def message (f : ParseFailure) : Bytes :=
  f.fullMessage.untilZero

end ParseFailure

/-- Reads a document or fails. -/
def parseStrict (source : Slice) (options : ReadOptions) : Except ParseFailure Value :=
  let parsed := parse source options
  match parsed.fault with
  | some error => .error ⟨error, source.bytes⟩
  | none => .ok parsed.value

end JsonTree
