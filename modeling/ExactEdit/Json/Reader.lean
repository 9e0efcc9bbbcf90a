import ExactEdit.Json.Value

/-! # Reading JSON

A reader for JSON texts. The whole text must be one value with blanks around it.

## Main definitions

* `JsonValue.readString` — the rest of a string behind its opening quote
* `JsonValue.readNumber` — a number
* `JsonValue.read?` — the value of a whole text
-/

namespace ExactEdit.JsonValue

/-- The text without leading blanks, of which JSON has four. -/
def skipBlanks (chars : List Char) : List Char :=
  chars.dropWhile fun c => c == ' ' || c == '\n' || c == '\t' || c == '\r'

/-- Value of a hexadecimal digit. -/
def hexDigit? (c : Char) : Option Nat :=
  if '0' ≤ c ∧ c ≤ '9' then some (c.toNat - '0'.toNat)
  else if 'a' ≤ c ∧ c ≤ 'f' then some (c.toNat - 'a'.toNat + 10)
  else if 'A' ≤ c ∧ c ≤ 'F' then some (c.toNat - 'A'.toNat + 10)
  else none

/-- Value of four hexadecimal digits. -/
def hexUnit? (a b c d : Char) : Option Nat := do
  return (((← hexDigit? a) * 16 + (← hexDigit? b)) * 16 + (← hexDigit? c)) * 16 + (← hexDigit? d)

/-- Whether a code unit is the first half of a surrogate pair. -/
def isHighSurrogate (unit : Nat) : Bool := 0xD800 ≤ unit && unit ≤ 0xDBFF

/-- Whether a code unit is the second half of a surrogate pair. -/
def isLowSurrogate (unit : Nat) : Bool := 0xDC00 ≤ unit && unit ≤ 0xDFFF

/-- The character of a surrogate pair. -/
def pairedChar (high low : Nat) : Char :=
  Char.ofNat (0x10000 + (high - 0xD800) * 0x400 + (low - 0xDC00))

/-- The character of an escape with one letter. -/
def escapedChar? (letter : Char) : Option Char :=
  match letter with
  | '"' => some '"'
  | '\\' => some '\\'
  | '/' => some '/'
  | 'b' => some '\x08'
  | 'f' => some '\x0c'
  | 'n' => some '\n'
  | 'r' => some '\r'
  | 't' => some '\t'
  | _ => none

/-- The value of the characters read so far, last first. -/
def stringValue : Option (List Char) → JsonValue
  | some seen => string (String.ofList seen.reverse)
  | none => illFormed

/-- One more character of a string. -/
def pushChar (c : Char) (seen : Option (List Char)) : Option (List Char) := seen.map (c :: ·)

/-- Reads a string up to its closing quote. `seen` holds the characters so far, last first, or
nothing once half of a surrogate pair was met. -/
def readString (seen : Option (List Char)) : List Char → Option (JsonValue × List Char)
  | [] => none
  | '"' :: rest => some (stringValue seen, rest)
  | '\\' :: 'u' :: a :: b :: c :: d :: rest =>
    match hexUnit? a b c d with
    | none => none
    | some unit =>
      if isHighSurrogate unit then
        match rest with
        | '\\' :: 'u' :: e :: f :: g :: h :: behind =>
          match hexUnit? e f g h with
          | none => none
          | some low =>
            if isLowSurrogate low then readString (pushChar (pairedChar unit low) seen) behind
            else readString none ('\\' :: 'u' :: e :: f :: g :: h :: behind)
        | rest => readString none rest
      else if isLowSurrogate unit then readString none rest
      else readString (pushChar (Char.ofNat unit) seen) rest
  | '\\' :: letter :: rest =>
    match escapedChar? letter with
    | some c => readString (pushChar c seen) rest
    | none => none
  | c :: rest => if c.toNat < 0x20 then none else readString (pushChar c seen) rest
termination_by chars => chars.length

/-- Leading decimal digits, and what follows them. -/
def takeDigits (chars : List Char) : List Char × List Char :=
  (chars.takeWhile Char.isDigit, chars.dropWhile Char.isDigit)

/-- The digits of an integer: a zero alone, or digits that do not start with zero. -/
def readInteger (chars : List Char) : Option (List Char × List Char) :=
  match takeDigits chars with
  | ([], _) => none
  | (['0'], rest) => some (['0'], rest)
  | ('0' :: _, _) => none
  | (digits, rest) => some (digits, rest)

/-- The fraction of a number, if there is one. -/
def readFraction (chars : List Char) : Option (List Char × List Char) :=
  match chars with
  | '.' :: rest =>
    match takeDigits rest with
    | ([], _) => none
    | (digits, rest) => some ('.' :: digits, rest)
  | _ => some ([], chars)

/-- The digits of an exponent behind its letter and sign. -/
def readExponentDigits (lead : List Char) (chars : List Char) : Option (List Char × List Char) :=
  match takeDigits chars with
  | ([], _) => none
  | (digits, rest) => some (lead ++ digits, rest)

/-- The exponent of a number, if there is one. -/
def readExponent (chars : List Char) : Option (List Char × List Char) :=
  match chars with
  | c :: rest =>
    if c = 'e' ∨ c = 'E' then
      match rest with
      | '+' :: rest => readExponentDigits [c, '+'] rest
      | '-' :: rest => readExponentDigits [c, '-'] rest
      | rest => readExponentDigits [c] rest
    else some ([], chars)
  | [] => some ([], [])

/-- A sign, if there is one. -/
def readSign (chars : List Char) : List Char × List Char :=
  match chars with
  | '-' :: rest => (['-'], rest)
  | _ => ([], chars)

/-- Reads a number. -/
def readNumber (chars : List Char) : Option (JsonValue × List Char) := do
  let (sign, rest) := readSign chars
  let (integer, rest) ← readInteger rest
  let (fraction, rest) ← readFraction rest
  let (exponent, rest) ← readExponent rest
  return (number (String.ofList (sign ++ integer ++ fraction ++ exponent)), rest)

/-- An object once a name of it may be ill formed. -/
def objectValue : Option (List (String × JsonValue)) → JsonValue
  | some seen => object seen.reverse
  | none => illFormed

/-- One more member of an object. -/
def pushMember (name : JsonValue) (value : JsonValue) (seen : Option (List (String × JsonValue))) :
    Option (List (String × JsonValue)) :=
  match name, seen with
  | string name, some seen => some ((name, value) :: seen)
  | _, _ => none

mutual

/-- Reads a value. The first number bounds the calls inside each other. -/
def readValue : Nat → List Char → Option (JsonValue × List Char)
  | 0, _ => none
  | fuel + 1, chars =>
    match skipBlanks chars with
    | '"' :: rest => readString (some []) rest
    | '[' :: rest =>
      match skipBlanks rest with
      | ']' :: rest => some (array [], rest)
      | rest => readItems fuel [] rest
    | '\x7b' :: rest =>
      match skipBlanks rest with
      | '\x7d' :: rest => some (object [], rest)
      | rest => readMembers fuel (some []) rest
    | 'n' :: 'u' :: 'l' :: 'l' :: rest => some (null, rest)
    | 't' :: 'r' :: 'u' :: 'e' :: rest => some (bool true, rest)
    | 'f' :: 'a' :: 'l' :: 's' :: 'e' :: rest => some (bool false, rest)
    | rest => readNumber rest

/-- Reads the items of an array and its closing bracket. -/
def readItems : Nat → List JsonValue → List Char → Option (JsonValue × List Char)
  | 0, _, _ => none
  | fuel + 1, seen, chars =>
    match readValue fuel chars with
    | none => none
    | some (item, rest) =>
      match skipBlanks rest with
      | ',' :: rest => readItems fuel (item :: seen) rest
      | ']' :: rest => some (array (item :: seen).reverse, rest)
      | _ => none

/-- Reads the members of an object and its closing brace. -/
def readMembers : Nat → Option (List (String × JsonValue)) → List Char →
    Option (JsonValue × List Char)
  | 0, _, _ => none
  | fuel + 1, seen, chars =>
    match skipBlanks chars with
    | '"' :: rest =>
      match readString (some []) rest with
      | none => none
      | some (name, rest) =>
        match skipBlanks rest with
        | ':' :: rest =>
          match readValue fuel rest with
          | none => none
          | some (value, rest) =>
            match skipBlanks rest with
            | ',' :: rest => readMembers fuel (pushMember name value seen) rest
            | '\x7d' :: rest => some (objectValue (pushMember name value seen), rest)
            | _ => none
        | _ => none
    | _ => none

end

/-- The value of a whole text. A call consumes a character or is followed by one that does. -/
def read? (text : String) : Option JsonValue :=
  let chars := text.toList
  match readValue (2 * chars.length + 2) chars with
  | some (value, rest) => if (skipBlanks rest).isEmpty then some value else none
  | none => none

end ExactEdit.JsonValue
