import ExactEdit.Text.Blank

/-! # Simple names

A scope may be declared under a path with generic arguments. Its simple name is the last
segment of what stands before the first `<`, segments being divided by `::` or a dot.
-/

namespace ExactEdit

/-- What follows the last `::` of a reversed text, still reversed; the text itself if there is
none. Reading from the end, the mark nearest to it is met first. -/
def untilColons : List Char → List Char
  | ':' :: ':' :: _ => []
  | c :: rest => c :: untilColons rest
  | [] => []

/-- The last segment of a path, without generic arguments and outer blanks. -/
def simpleName (path : List Char) : List Char :=
  let head := path.takeWhile (· != '<')
  let segment := (untilColons head.reverse).takeWhile (· != '.')
  Text.trim segment.reverse

end ExactEdit
