/-! # Positions

A position is a line and a column, both counted from one, the column in characters. A
coordinate that names no place is an error that says which one and why; none is moved to
the nearest valid place.
-/

namespace ExactEdit

/-- A line and a character column, counted from one. -/
structure Position where
  line : Nat
  column : Nat
  deriving DecidableEq, Repr, Inhabited

/-- Why a coordinate names no place in a text. -/
inductive PositionError where
  /-- There is no such line among the `total` ones. -/
  | lineOutOfBounds (line total : Nat)
  /-- The line has only `width` characters. -/
  | columnOutOfBounds (line column width : Nat)
  /-- The text has only `size` bytes, or none at all. -/
  | offsetOutOfBounds (offset size : Nat)
  /-- The offset is inside a character. -/
  | notCharBoundary (offset : Nat)
  deriving DecidableEq, Repr, Inhabited

/-- The message for a reader. -/
def PositionError.message : PositionError → String
  | .lineOutOfBounds line total =>
    s!"line {line} is out of bounds (source has {total} lines)"
  | .columnOutOfBounds line column width =>
    s!"column {column} is out of bounds for line {line} ({width} characters)"
  | .offsetOutOfBounds offset size =>
    s!"offset {offset} is out of bounds (source is {size} bytes)"
  | .notCharBoundary offset =>
    s!"offset {offset} does not fall on a character boundary"

end ExactEdit
