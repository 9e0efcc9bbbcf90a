import ExactEdit.Text.Blank
import ExactEdit.Text.Search

/-! # Languages

The programming languages whose scopes are known. A language is told by the extension of a
file or named by the user, and says which lines count as comment lines.
-/

namespace ExactEdit

/-- A programming language with known scopes. -/
inductive Language where
  | rust
  | python
  | javaScript
  | typeScript
  | tsx
  | go
  | cpp
  deriving DecidableEq, Repr, Inhabited

namespace Language

/-- The lower-case name of a language. -/
def name : Language → String
  | rust => "rust"
  | python => "python"
  | javaScript => "javascript"
  | typeScript => "typescript"
  | tsx => "tsx"
  | go => "go"
  | cpp => "cpp"

/-- All languages. -/
def all : List Language := [rust, python, javaScript, typeScript, tsx, go, cpp]

/-- The language with this very name. -/
def ofName? (name : String) : Option Language := all.find? (·.name == name)

/-- The last component of a path. Empty components and `.` do not count; a path that ends in
`..` names no file. -/
def fileName? (path : String) : Option (List Char) :=
  let components := (path.splitOn "/").filter fun part => part != "" && part != "."
  match components.getLast? with
  | some ".." => none
  | some last => some last.toList
  | none => none

/-- The extension of a path: what follows the last dot of the file name, unless that dot is
its first character. -/
def extension? (path : String) : Option (List Char) := do
  let reversed := (← fileName? path).reverse
  match reversed.dropWhile (· != '.') with
  | '.' :: _ :: _ => some (reversed.takeWhile (· != '.')).reverse
  | _ => none

/-- The language that uses a lower-case extension. -/
def ofExtension? (extension : String) : Option Language :=
  if extension == "rs" then some rust
  else if ["py", "pyi"].contains extension then some python
  else if ["js", "jsx", "mjs", "cjs"].contains extension then some javaScript
  else if ["ts", "mts", "cts"].contains extension then some typeScript
  else if extension == "tsx" then some tsx
  else if extension == "go" then some go
  else if ["cpp", "cxx", "cc", "hpp", "hh", "hxx", "h"].contains extension then some cpp
  else none

/-- The language of a file, by its extension in any case. No letter of a known extension has a
capital outside ASCII, so the ASCII case map decides as the full one would. -/
def ofPath? (path : String) : Option Language := do
  ofExtension? (String.ofList ((← extension? path).map Char.toLower))

/-- The language that a user's name stands for, else the name in lower case. -/
def parse (name : String) : Except String Language :=
  let lower := name.map Char.toLower
  if ["rust", "rs"].contains lower then .ok rust
  else if ["python", "py"].contains lower then .ok python
  else if ["javascript", "js", "jsx"].contains lower then .ok javaScript
  else if ["typescript", "ts"].contains lower then .ok typeScript
  else if lower == "tsx" then .ok tsx
  else if ["go", "golang"].contains lower then .ok go
  else if ["cpp", "c++", "cxx"].contains lower then .ok cpp
  else .error lower

/-- The message for a name that stands for no language. -/
def unsupportedMessage (lower : String) : String := "unsupported language: " ++ lower

/-- Whether a line counts as a comment line: it holds a comment mark of the language, or
starts with the star of a block comment's inner line. Without a language any common mark
counts. -/
def isCommentLine (language : Option Language) (line : List Char) : Bool :=
  match language with
  | some python => Text.holds ['#'] line
  | some _ =>
    Text.holds ['/', '/'] line || Text.holds ['/', '*'] line || Text.holds ['*', '/'] line
      || (Text.trimStart line).head? == some '*'
  | none => Text.holds ['/', '/'] line || Text.holds ['#'] line || Text.holds ['/', '*'] line

end Language

end ExactEdit
