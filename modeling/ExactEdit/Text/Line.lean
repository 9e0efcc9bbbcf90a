/-! # Lines of a text

A line is cut behind its line feed. The content of a line leaves out the feed and one
carriage return before it; a last line without a feed keeps all its characters, and a text
that ends with a feed has no further, empty line.
-/

namespace ExactEdit.Text

/-- Cuts behind every character that `ends` accepts. `done` holds the finished pieces, last
first, and `current` the characters of the open piece, last first. -/
def cutAfter (ends : Char → Bool) (done : List (List Char)) (current : List Char) :
    List Char → List (List Char)
  | [] => (if current.isEmpty then done else current.reverse :: done).reverse
  | c :: rest =>
    if ends c then cutAfter ends ((c :: current).reverse :: done) [] rest
    else cutAfter ends done (c :: current) rest

/-- The lines of a text, each with its terminator. -/
def terminatedLines (chars : List Char) : List (List Char) :=
  cutAfter (· == '\n') [] [] chars

/-- A line without its line feed and a carriage return before that. -/
def lineContent (line : List Char) : List Char :=
  match line.reverse with
  | '\n' :: '\r' :: rest => rest.reverse
  | '\n' :: rest => rest.reverse
  | _ => line

/-- The contents of the lines of a text. -/
def lines (chars : List Char) : List (List Char) :=
  (terminatedLines chars).map lineContent

/-- A text without one line feed at its end. -/
def withoutFeed (chars : List Char) : List Char :=
  match chars.reverse with
  | '\n' :: rest => rest.reverse
  | _ => chars

/-- The contents of the lines of a string. -/
def linesOf (s : String) : List String := (lines s.toList).map String.ofList

end ExactEdit.Text
