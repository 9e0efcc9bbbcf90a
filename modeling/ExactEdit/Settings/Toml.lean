import ExactEdit.Settings.Scalar

/-! # TOML

A reader for TOML texts. A text is a sequence of lines: headers that open a table, and keys with
values that go into the open one. A table is defined once; what may still be added to it depends
on how it came to be.

## Main definitions

* `Toml.Entry` — a value, a table with its origin, or an array of tables
* `Toml.putValue`, `Toml.openTable`, `Toml.openElement` — what a line adds
* `Toml.readValue` — a value
* `Toml.read?` — the members of a whole text
-/

namespace ExactEdit.Toml

/-- How a table came to be: on the way to another one named by a header, by a header of its own,
or on the way to a dotted key. -/
inductive Origin where
  | implied
  | headed
  | dotted
  deriving DecidableEq, Repr, Inhabited

/-- What stands under a name while a text is read. The elements of an array of tables are kept
last first. -/
inductive Entry where
  | value (value : SettingValue)
  | table (origin : Origin) (members : List (String × Entry))
  | tables (elements : List (List (String × Entry)))
  deriving Repr, Inhabited

/-- The members of a table while a text is read. -/
abbrev Members : Type := List (String × Entry)

/-- Changes or makes the entry under a name. -/
def alter (name : String) (change : Option Entry → Option Entry) : Members → Option Members
  | [] => do return [(name, ← change none)]
  | (other, entry) :: rest => do
    if other = name then return (other, ← change (some entry)) :: rest
    else return (other, entry) :: (← alter name change rest)

/-- Changes the table at the end of some names. Tables on the way that are not there are made; of
an array of tables the last one is meant. -/
def descend (change : Members → Option Members) : List String → Members → Option Members
  | [], members => change members
  | name :: names, members =>
    alter name (fun
      | none => do return .table .implied (← descend change names [])
      | some (.table origin inner) => do return .table origin (← descend change names inner)
      | some (.tables (last :: earlier)) => do
        return .tables ((← descend change names last) :: earlier)
      | some _ => none) members

/-- Puts a value under a dotted key. The key is new, and no table on the way has a header. -/
def putValue (value : SettingValue) : List String → Members → Option Members
  | [], _ => none
  | [name], members =>
    alter name (fun
      | none => some (.value value)
      | some _ => none) members
  | name :: names, members =>
    alter name (fun
      | none => do return .table .dotted (← putValue value names [])
      | some (.table .headed _) => none
      | some (.table origin inner) => do return .table origin (← putValue value names inner)
      | some _ => none) members

/-- Opens the table of a header. -/
def openTable (key : List String) (root : Members) : Option Members := do
  let name ← key.getLast?
  descend (alter name fun
    | none => some (.table .headed [])
    | some (.table .implied inner) => some (.table .headed inner)
    | some _ => none) key.dropLast root

/-- Opens a new element of an array of tables. -/
def openElement (key : List String) (root : Members) : Option Members := do
  let name ← key.getLast?
  descend (alter name fun
    | none => some (.tables [[]])
    | some (.tables elements) => some (.tables ([] :: elements))
    | some _ => none) key.dropLast root

mutual

/-- The value of an entry. -/
def Entry.finish : Entry → SettingValue
  | .value value => value
  | .table _ members => .table (finishMembers members)
  | .tables elements => .list (finishElements elements).reverse

/-- The values of members. -/
def finishMembers : List (String × Entry) → List (String × SettingValue)
  | [] => []
  | (name, entry) :: rest => (name, entry.finish) :: finishMembers rest

/-- The tables of an array of tables. -/
def finishElements : List (List (String × Entry)) → List SettingValue
  | [] => []
  | members :: rest => .table (finishMembers members) :: finishElements rest

end

/-- The text without leading blanks. -/
def skipBlanks (chars : List Char) : List Char := chars.dropWhile fun c => c == ' ' || c == '\t'

/-- Whether a character may stand in a comment or a string on one line. -/
def isPrintable (c : Char) : Bool := c == '\t' || (0x20 ≤ c.toNat && c.toNat != 0x7F)

/-- The text behind a comment. -/
def skipComment : List Char → List Char
  | '#' :: rest => rest.dropWhile isPrintable
  | chars => chars

/-- The text behind a line feed, or at the end. -/
def skipFeed? : List Char → Option (List Char)
  | [] => some []
  | '\n' :: rest => some rest
  | '\r' :: '\n' :: rest => some rest
  | _ => none

/-- The text behind the rest of a line, on which only blanks and a comment may stand. -/
def skipLine? (chars : List Char) : Option (List Char) := skipFeed? (skipComment (skipBlanks chars))

theorem length_dropWhile_le {α : Type} (p : α → Bool) (items : List α) :
    (items.dropWhile p).length ≤ items.length := (List.dropWhile_sublist p).length_le

/-- The text without leading blanks, line ends and comments. -/
def skipLines : List Char → List Char
  | ' ' :: rest => skipLines rest
  | '\t' :: rest => skipLines rest
  | '\n' :: rest => skipLines rest
  | '\r' :: '\n' :: rest => skipLines rest
  | '#' :: rest => skipLines (rest.dropWhile isPrintable)
  | chars => chars
termination_by chars => chars.length
decreasing_by
  all_goals
    have := length_dropWhile_le isPrintable rest
    simp only [List.length_cons]
    omega

/-- The character whose code point is written in the first `width` characters, in hexadecimal
digits. -/
def codePoint? (width : Nat) (chars : List Char) : Option Char := do
  let digits := chars.take width
  guard (digits.length = width)
  let code ← Scalar.digits? 16 digits
  if code.isValidChar then some (Char.ofNat code) else none

/-- The character of an escape with one letter. -/
def escapedChar? (letter : Char) : Option Char :=
  match letter with
  | 'b' => some '\x08'
  | 't' => some '\t'
  | 'n' => some '\n'
  | 'f' => some '\x0c'
  | 'r' => some '\r'
  | '"' => some '"'
  | '\\' => some '\\'
  | _ => none

/-- The character behind a backslash, and the rest. -/
def readEscape : List Char → Option (Char × List Char)
  | 'u' :: rest => do return (← codePoint? 4 rest, rest.drop 4)
  | 'U' :: rest => do return (← codePoint? 8 rest, rest.drop 8)
  | letter :: rest => do return (← escapedChar? letter, rest)
  | [] => none

/-- The text behind a backslash at the end of a line, up to the next line with something on it. -/
def skipJoint? (chars : List Char) : Option (List Char) :=
  match skipBlanks chars with
  | '\n' :: rest => some (rest.dropWhile isJoint)
  | '\r' :: '\n' :: rest => some (rest.dropWhile isJoint)
  | _ => none
where
  /-- Blanks and line ends. -/
  isJoint (c : Char) : Bool := c == ' ' || c == '\t' || c == '\n' || c == '\r'

/-- Reads a string on one line up to its closing quote; `seen` holds its characters, last
first. -/
def readShort (quote : Char) : Nat → List Char → List Char → Option (String × List Char)
  | 0, _, _ => none
  | _ + 1, _, [] => none
  | fuel + 1, seen, c :: rest =>
    if c = quote then some (String.ofList seen.reverse, rest)
    else if c = '\\' ∧ quote = '"' then
      match readEscape rest with
      | some (escaped, rest) => readShort quote fuel (escaped :: seen) rest
      | none => none
    else if isPrintable c then readShort quote fuel (c :: seen) rest
    else none

/-- Reads a string over several lines up to its three closing quotes, in front of which two more
may stand. -/
def readLong (quote : Char) : Nat → List Char → List Char → Option (String × List Char)
  | 0, _, _ => none
  | _ + 1, _, [] => none
  | fuel + 1, seen, c :: rest =>
    if c = quote ∧ rest.take 2 = [quote, quote] then
      let more := (rest.drop 2).takeWhile (· == quote)
      if 2 < more.length then none
      else some (String.ofList (more ++ seen).reverse, rest.drop (2 + more.length))
    else if c = '\\' ∧ quote = '"' then
      match skipJoint? rest with
      | some rest => readLong quote fuel seen rest
      | none =>
        match readEscape rest with
        | some (escaped, rest) => readLong quote fuel (escaped :: seen) rest
        | none => none
    else if isPrintable c ∨ c = '\n' ∨ (c = '\r' ∧ rest.head? = some '\n') then
      readLong quote fuel (c :: seen) rest
    else none

/-- The text without a line end in front. -/
def dropFeed (chars : List Char) : List Char := (skipFeed? chars).getD chars

/-- Reads a string behind its first quote. -/
def readQuoted (quote : Char) (chars : List Char) : Option (String × List Char) :=
  if chars.take 2 = [quote, quote] then
    readLong quote (chars.length + 1) [] (dropFeed (chars.drop 2))
  else readShort quote (chars.length + 1) [] chars

/-- Whether a character may stand in a key without quotes. -/
def isKeyChar (c : Char) : Bool := c.isAlphanum || c == '_' || c == '-'

/-- Reads one name of a key. -/
def readName (chars : List Char) : Option (String × List Char) :=
  match chars with
  | '"' :: rest => readShort '"' (rest.length + 1) [] rest
  | '\x27' :: rest => readShort '\x27' (rest.length + 1) [] rest
  | chars =>
    let name := chars.takeWhile isKeyChar
    if name.isEmpty then none else some (String.ofList name, chars.dropWhile isKeyChar)

/-- Reads the names of a dotted key and the blanks around them. -/
def readKey : Nat → List Char → Option (List String × List Char)
  | 0, _ => none
  | fuel + 1, chars => do
    let (name, rest) ← readName (skipBlanks chars)
    match skipBlanks rest with
    | '.' :: rest =>
      let (names, rest) ← readKey fuel rest
      return (name :: names, rest)
    | rest => return ([name], rest)

/-- Takes the underscores between digits out; none may stand elsewhere. -/
def withoutUnderscores? : List Char → Option (List Char)
  | [] => some []
  | '_' :: _ => none
  | [c] => some [c]
  | c :: '_' :: next :: rest => do
    guard (c.isAlphanum && next.isAlphanum)
    return c :: (← withoutUnderscores? (next :: rest))
  | c :: rest => do return c :: (← withoutUnderscores? rest)

/-- Whether digits have a zero in front that says nothing. -/
def hasLeadingZero (chars : List Char) : Bool :=
  match chars with
  | '0' :: c :: _ => c.isDigit
  | _ => false

/-- Whether a point stands between digits, if there is one. -/
def hasFullPoint (chars : List Char) : Bool :=
  match chars.dropWhile (· != '.') with
  | '.' :: c :: _ => c.isDigit && (chars.head?.map Char.isDigit).getD false
  | '.' :: [] => false
  | _ => (chars.head?.map Char.isDigit).getD false

/-- A number without underscores. -/
def number? (chars : List Char) : Option SettingValue :=
  match chars with
  | '0' :: 'x' :: digits => natural 16 digits
  | '0' :: 'o' :: digits => natural 8 digits
  | '0' :: 'b' :: digits => natural 2 digits
  | _ =>
    let magnitude := (Scalar.splitSign chars).2
    if hasLeadingZero magnitude then none
    else if magnitude.all Char.isDigit then (Scalar.integer? chars).map .integer
    else if magnitude = ['i', 'n', 'f'] ∨ magnitude = ['n', 'a', 'n'] ∨ hasFullPoint magnitude then
      (Scalar.real? chars).map .real
    else none
where
  /-- A number in another base. -/
  natural (base : Nat) (digits : List Char) : Option SettingValue := do
    return .integer (← Scalar.fitting? (← Scalar.digits? base digits))

/-- Whether characters fit a pattern, in which `0` stands for any digit. -/
def fitsPattern (pattern : String) (chars : List Char) : Bool :=
  pattern.length == chars.length
    && (pattern.toList.zip chars).all fun (want, c) => if want == '0' then c.isDigit else want == c

/-- Whether a word is a time of day, with a fraction of a second if need be. -/
def isTime (chars : List Char) : Bool :=
  fitsPattern "00:00:00" (chars.take 8)
    && match chars.drop 8 with
      | [] => true
      | '.' :: digits => !digits.isEmpty && digits.all Char.isDigit
      | _ => false

/-- Whether a word is a time of day with an offset. -/
def isOffsetTime (chars : List Char) : Bool :=
  match chars.reverse with
  | 'Z' :: rest => isTime rest.reverse
  | 'z' :: rest => isTime rest.reverse
  | _ =>
    let time := chars.take (chars.length - 6)
    let offset := chars.drop (chars.length - 6)
    isTime time && (fitsPattern "+00:00" offset || fitsPattern "-00:00" offset)

/-- Whether a word is a date, a time, or both. -/
def isMoment (chars : List Char) : Bool :=
  isTime chars
    || fitsPattern "0000-00-00" chars
    || (fitsPattern "0000-00-00" (chars.take 10)
      && match chars.drop 10 with
        | c :: time => (c == 'T' || c == 't' || c == ' ') && (isTime time || isOffsetTime time)
        | [] => false)

/-- The value of a word. -/
def word? (chars : List Char) : Option SettingValue :=
  if chars = ['t', 'r', 'u', 'e'] then some (.truth true)
  else if chars = ['f', 'a', 'l', 's', 'e'] then some (.truth false)
  else if isMoment chars then some (.text (String.ofList chars))
  else (withoutUnderscores? chars).bind number?

/-- Whether a character may stand in a word. -/
def isWordChar (c : Char) : Bool := c.isAlphanum || ['+', '-', '_', '.', ':'].contains c

/-- Takes a word off; a date may be followed by a blank and a time. -/
def takeWord (chars : List Char) : List Char × List Char :=
  let word := chars.takeWhile isWordChar
  let rest := chars.dropWhile isWordChar
  match rest with
  | ' ' :: time =>
    if fitsPattern "0000-00-00" word && fitsPattern "00:" (time.take 3) then
      (word ++ ' ' :: time.takeWhile isWordChar, time.dropWhile isWordChar)
    else (word, rest)
  | _ => (word, rest)

mutual

/-- Reads a value. -/
def readValue : Nat → List Char → Option (SettingValue × List Char)
  | 0, _ => none
  | fuel + 1, chars =>
    match chars with
    | '"' :: rest => (readQuoted '"' rest).map fun (text, rest) => (.text text, rest)
    | '\x27' :: rest => (readQuoted '\x27' rest).map fun (text, rest) => (.text text, rest)
    | '[' :: rest => readItems fuel [] (skipLines rest)
    | '\x7b' :: rest =>
      match skipBlanks rest with
      | '\x7d' :: rest => some (.table [], rest)
      | rest => readMembers fuel [] rest
    | chars =>
      let (word, rest) := takeWord chars
      (word? word).map fun value => (value, rest)

/-- Reads the items of an array and its closing bracket. A comma may follow the last item. -/
def readItems : Nat → List SettingValue → List Char → Option (SettingValue × List Char)
  | 0, _, _ => none
  | _ + 1, seen, ']' :: rest => some (.list seen.reverse, rest)
  | fuel + 1, seen, chars =>
    match readValue fuel chars with
    | none => none
    | some (item, rest) =>
      match skipLines rest with
      | ',' :: rest => readItems fuel (item :: seen) (skipLines rest)
      | ']' :: rest => some (.list (item :: seen).reverse, rest)
      | _ => none

/-- Reads the members of a table on one line and its closing brace. -/
def readMembers : Nat → Members → List Char → Option (SettingValue × List Char)
  | 0, _, _ => none
  | fuel + 1, seen, chars =>
    match readKey (fuel + 1) chars with
    | some (key, '=' :: rest) =>
      match readValue fuel (skipBlanks rest) with
      | none => none
      | some (value, rest) =>
        match putValue value key seen with
        | none => none
        | some members =>
          match skipBlanks rest with
          | ',' :: rest => readMembers fuel members rest
          | '\x7d' :: rest => some (.table (finishMembers members), rest)
          | _ => none
    | _ => none

end

/-- Reads a line that is not blank, in the table with the given key. Tells which table is open
behind it. -/
def readLine (opened : List String) (root : Members) (chars : List Char) :
    Option (List String × Members × List Char) := do
  let fuel := chars.length + 1
  match chars with
  | '[' :: '[' :: rest =>
    match ← readKey fuel rest with
    | (key, ']' :: ']' :: rest) => return (key, ← openElement key root, ← skipLine? rest)
    | _ => none
  | '[' :: rest =>
    match ← readKey fuel rest with
    | (key, ']' :: rest) => return (key, ← openTable key root, ← skipLine? rest)
    | _ => none
  | _ =>
    match ← readKey fuel chars with
    | (key, '=' :: rest) =>
      let (value, rest) ← readValue fuel (skipBlanks rest)
      return (opened, ← descend (putValue value key) opened root, ← skipLine? rest)
    | _ => none

/-- Reads lines up to the end of the text. A line has at least one character. -/
def readLines : Nat → List String → Members → List Char → Option Members
  | 0, _, _, _ => none
  | fuel + 1, opened, root, chars =>
    match skipLines chars with
    | [] => some root
    | chars =>
      match readLine opened root chars with
      | some (opened, root, rest) => readLines fuel opened root rest
      | none => none

/-- The members of a whole text. -/
def read? (text : String) : Option (List (String × SettingValue)) :=
  let chars := text.toList
  (readLines (chars.length + 1) [] [] chars).map finishMembers

end ExactEdit.Toml
