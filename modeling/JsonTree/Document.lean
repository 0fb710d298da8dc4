import JsonTree.Parse

/-!
# Documents

A document keeps a text together with the value read from it, so that the views in the value stay
good as long as the document does.  The text is kept whether or not it can be read; without a value
the root is null.
-/

namespace JsonTree

/-- A text and the value read from it. -/
structure Document where
  text : ByteArray := .empty
  root : Value := .null

namespace Document

/-- A document that keeps a text of which nothing has been read. -/
def ofText (text : ByteArray) : Document :=
  { text }

/-- The text as a whole buffer. -/
def source (d : Document) : Slice :=
  .ofMemory 0 d.text

/-- Takes a text and reads it. -/
def parse (text : ByteArray) (options : ReadOptions) : Document × Fault :=
  let document := ofText text
  let (root, s) := Reader.build options.maxDepth (Reader.start document.source options)
  if s.failed then (document, s.fault)
  else
    let (ended, s) := Reader.finish s
    (if ended then { document with root } else document, s.fault)

/-- Copies a stretch of bytes and reads it. -/
def parseView (view : Slice) (options : ReadOptions) : Document × Fault :=
  parse ⟨view.bytes.toArray⟩ options

/-- Reads the text in front of the first zero byte. -/
def parseTerminated (text : Bytes) (options : ReadOptions) : Document × Fault :=
  parseView (.ofBytes 0 text.untilZero) options

/-- The document, or the failure to read it. -/
def strict (parsed : Document × Fault) : Except ParseFailure Document :=
  match parsed with
  | (document, some error) => .error ⟨error, document.source.bytes⟩
  | (document, none) => .ok document

/-- Forgets the value; the text stays. -/
def clear (d : Document) : Document :=
  { d with root := .null }

end Document

end JsonTree
