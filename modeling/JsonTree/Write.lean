import JsonTree.Write.Compact
import JsonTree.Write.Pretty

/-!
# Writing values

A value is written in one of two layouts, to an empty output or behind what an output holds
already.
-/

namespace JsonTree

/-- How the tokens are laid out. -/
inductive Layout where
  /-- With nothing between them. -/
  | compact
  /-- Over indented lines. -/
  | pretty
  deriving DecidableEq

/-- What a caller may ask of writing. -/
structure WriteOptions where
  layout : Layout := .compact
  /-- Numbers that are not finite are written by name and are no error. -/
  allowNonFinite : Bool := false
  deriving DecidableEq

namespace Value

/-- Writes a value behind what the output holds. -/
def writeTo (v : Value) (options : WriteOptions) (out : Output) : Except WriteError Output :=
  match options.layout with
  | .compact => Write.compact options.allowNonFinite [{ left := v }] out
  | .pretty => Write.pretty options.allowNonFinite 0 v out

/-- The text of a value. -/
def write (v : Value) (options : WriteOptions) : Except WriteError Bytes :=
  (v.writeTo options .empty).map Output.bytes

end Value

end JsonTree
