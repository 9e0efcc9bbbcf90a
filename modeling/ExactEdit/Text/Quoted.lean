import ExactEdit.Text.Blank

/-! # Quoted blanks

Messages show the indentation of a line between double quotes, so that tabs and spaces can
be told apart: a tab, feed, return or NUL by its letter, a quote or backslash behind a
backslash, any other blank but the space by its code point.
-/

namespace ExactEdit.Text

/-- The written form of one character between quotes. -/
def quotedChar (c : Char) : String :=
  match c with
  | '"' => "\\\""
  | '\\' => "\\\\"
  | '\t' => "\\t"
  | '\n' => "\\n"
  | '\r' => "\\r"
  | '\x00' => "\\0"
  | ' ' => " "
  | _ =>
    if isBlank c then "\\u\x7b" ++ String.ofList (Nat.toDigits 16 c.toNat) ++ "\x7d"
    else c.toString

/-- A text between double quotes. -/
def quoted (chars : List Char) : String :=
  "\"" ++ String.join (chars.map quotedChar) ++ "\""

end ExactEdit.Text
