import ExactEdit.Json.Value

/-! # Writing JSON

A value is written on one line without blanks, or *spread* over lines with two blanks for every
level. Only quotes, backslashes and control characters are escaped.
-/

namespace ExactEdit.JsonValue

/-- A hexadecimal digit. -/
def hexDigit (n : Nat) : Char := Nat.digitChar n

/-- A character inside quotes. -/
def escapeChar (c : Char) : List Char :=
  match c with
  | '"' => ['\\', '"']
  | '\\' => ['\\', '\\']
  | '\x08' => ['\\', 'b']
  | '\t' => ['\\', 't']
  | '\n' => ['\\', 'n']
  | '\x0c' => ['\\', 'f']
  | '\r' => ['\\', 'r']
  | _ =>
    if c.toNat < 0x20 then ['\\', 'u', '0', '0', hexDigit (c.toNat / 16), hexDigit (c.toNat % 16)]
    else [c]

/-- A text between quotes. -/
def quoteChars (chars : List Char) : List Char :=
  '"' :: (chars.flatMap escapeChar ++ ['"'])

/-- A string between quotes. -/
def quote (s : String) : String := String.ofList (quoteChars s.toList)

mutual

/-- A value on one line. -/
def compact : JsonValue → String
  | null => "null"
  | bool true => "true"
  | bool false => "false"
  | number written => written
  | string value => quote value
  | array items => "[" ++ compactItems items ++ "]"
  | object members => "\x7b" ++ compactMembers members ++ "\x7d"
  | illFormed => "null"

/-- Items with commas between them. -/
def compactItems : List JsonValue → String
  | [] => ""
  | [item] => item.compact
  | item :: rest => item.compact ++ "," ++ compactItems rest

/-- Members with commas between them. -/
def compactMembers : List (String × JsonValue) → String
  | [] => ""
  | [(name, value)] => quote name ++ ":" ++ value.compact
  | (name, value) :: rest => quote name ++ ":" ++ value.compact ++ "," ++ compactMembers rest

end

/-- A new line at a level. -/
def newLine (level : Nat) : String := "\n" ++ String.ofList (List.replicate (2 * level) ' ')

mutual

/-- A value over several lines, itself at a level. -/
def spreadAt (level : Nat) : JsonValue → String
  | array [] => "[]"
  | array items =>
    "[" ++ newLine (level + 1) ++ spreadItems (level + 1) items ++ newLine level ++ "]"
  | object [] => "\x7b\x7d"
  | object members =>
    "\x7b" ++ newLine (level + 1) ++ spreadMembers (level + 1) members ++ newLine level ++ "\x7d"
  | null => "null"
  | bool true => "true"
  | bool false => "false"
  | number written => written
  | string value => quote value
  | illFormed => "null"

/-- Items with commas and new lines between them. -/
def spreadItems (level : Nat) : List JsonValue → String
  | [] => ""
  | [item] => item.spreadAt level
  | item :: rest => item.spreadAt level ++ "," ++ newLine level ++ spreadItems level rest

/-- Members with commas and new lines between them. -/
def spreadMembers (level : Nat) : List (String × JsonValue) → String
  | [] => ""
  | [(name, value)] => quote name ++ ": " ++ value.spreadAt level
  | (name, value) :: rest =>
    quote name ++ ": " ++ value.spreadAt level ++ "," ++ newLine level ++ spreadMembers level rest

end

/-- A value over several lines. -/
def spread (value : JsonValue) : String := value.spreadAt 0

end ExactEdit.JsonValue
