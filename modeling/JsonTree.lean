import JsonTree.Bytes
import JsonTree.Slice
import JsonTree.Slice.Scan
import JsonTree.Output
import JsonTree.Utf8
import JsonTree.Binary64
import JsonTree.Binary64.Rounding
import JsonTree.Decimal.Shortest
import JsonTree.Decimal.Style
import JsonTree.Numeral
import JsonTree.Text
import JsonTree.Error
import JsonTree.Error.Excerpt
import JsonTree.Value
import JsonTree.Value.Table
import JsonTree.Value.Equality
import JsonTree.Value.Owned
import JsonTree.Value.Edit
import JsonTree.Token
import JsonTree.Build
import JsonTree.Token.Script
import JsonTree.Reader.Literal
import JsonTree.Reader
import JsonTree.Reader.Progress
import JsonTree.Write.Escape
import JsonTree.Write.Scalar
import JsonTree.Write.Compact
import JsonTree.Write.Pretty
import JsonTree.Write
import JsonTree.Parse
import JsonTree.Document
import JsonTree.CommandLine
import JsonTree.Main
import JsonTree.Proofs.Scan
import JsonTree.Proofs.Utf8
import JsonTree.Proofs.Rounding
import JsonTree.Proofs.Numeral
import JsonTree.Proofs.Decimal
import JsonTree.Proofs.Piece
import JsonTree.Proofs.Literal
import JsonTree.Proofs.Table
import JsonTree.Proofs.Association
import JsonTree.Proofs.Nesting
import JsonTree.Proofs.Builder
import JsonTree.Proofs.Outcome
import JsonTree.Proofs.Calls
import JsonTree.Proofs.Grammar
import JsonTree.Proofs.Cursor
import JsonTree.Proofs.Reading
import JsonTree.Proofs.Offence
import JsonTree.Proofs.Tree
import JsonTree.Proofs.Writing
import JsonTree.Proofs.Written
import JsonTree.Proofs.RoundTrip
import JsonTree.Proofs.Replay
import JsonTree.Proofs.Rejection
import JsonTree.Proofs.Advance
import JsonTree.Proofs.Inspection
import JsonTree.Proofs.Inspection.Literal
import JsonTree.Proofs.Inspection.Number
import JsonTree.Proofs.Inspection.Reader
import JsonTree.Proofs.Footprint
import JsonTree.Proofs.Built
import JsonTree.Proofs.Equality
import JsonTree.Proofs.Origin
import JsonTree.Proofs.Concatenation
import JsonTree.Proofs.Finality.Literal
import JsonTree.Proofs.Lockstep
import JsonTree.Proofs.Finality
import JsonTree.Proofs.Limit
import JsonTree.Proofs.Appending
import JsonTree.Proofs.Completion.Literal
import JsonTree.Proofs.Completion.Reader
import JsonTree.Proofs.Layout
import JsonTree.Proofs.Completion
import JsonTree.Proofs.Texts
import JsonTree.Proofs.Relocation
import JsonTree.Proofs.Agreement
import JsonTree.Proofs.Flaw
import JsonTree.Proofs.Rendered
import JsonTree.Proofs.Rereading
import JsonTree.Proofs.Coherence
import JsonTree.Proofs.Copy
import JsonTree.Proofs.Pattern
import JsonTree.Proofs.Integers
import JsonTree.Proofs.Floats
import JsonTree.Proofs.FloatTexts
import JsonTree.Proofs.Weight
import JsonTree.Proofs.Consumption
import JsonTree.Proofs.Termination
import JsonTree.Proofs.Placement
import JsonTree.Proofs.NonFinite
import JsonTree.Proofs.Walk
import JsonTree.Proofs.Description
import JsonTree.Proofs.Failure
import JsonTree.Proofs.Verdict
import JsonTree.Proofs.Search
