import ExactEdit.Source.LineIndex

/-! # Points

Parsers give places as rows and byte columns, both counted from zero.
-/

namespace ExactEdit

/-- A row and a byte column, counted from zero. -/
structure Point where
  row : Nat
  column : Nat
  deriving DecidableEq, Repr, Inhabited

/-- The point of a byte offset: the line feeds in front of it, and the bytes since the last of
them. -/
def LineIndex.pointOf (index : LineIndex) (offset : Nat) : Point :=
  let before := index.feeds.takeWhile (· < offset)
  match before.getLast? with
  | some feed => ⟨before.length, offset - (feed + 1)⟩
  | none => ⟨0, offset⟩

end ExactEdit
