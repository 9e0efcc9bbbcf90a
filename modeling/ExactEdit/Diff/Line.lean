/-! # Lines for a difference

Differences are taken between lines that keep their terminators. A terminator is a line
feed, a carriage return, or a carriage return with a line feed behind it.
-/

namespace ExactEdit.Diff

/-- Cuts behind every terminator. `done` holds the finished lines, last first, and `current`
the characters of the open line, last first. -/
def cutLines (done : List (List Char)) (current : List Char) : List Char → List (List Char)
  | [] => (if current.isEmpty then done else current.reverse :: done).reverse
  | '\r' :: '\n' :: rest => cutLines (('\n' :: '\r' :: current).reverse :: done) [] rest
  | c :: rest =>
    if c = '\r' ∨ c = '\n' then cutLines ((c :: current).reverse :: done) [] rest
    else cutLines done (c :: current) rest

/-- The lines of a text, each with its terminator. -/
def linesOf (text : String) : List String :=
  (cutLines [] [] text.toList).map String.ofList

end ExactEdit.Diff
