import ExactEdit.Settings.Toml
import ExactEdit.Text.Line

/-! # YAML

A reader for settings in YAML: mappings and sequences by indentation, collections in brackets and
braces on one line, and scalars with or without quotes. Anchors, tags, and scalars over several
lines are not read. A mapping must not repeat a key.

## Main definitions

* `Yaml.Line` — a line without its comment, with its indentation
* `Yaml.readInline` — a value on one line
* `Yaml.readBlock` — a value by indentation
* `Yaml.read?` — the members of a whole text
-/

namespace ExactEdit.Yaml

/-- A line that says something: the blanks in front of it, and the rest without comment and blanks
at the end. -/
structure Line where
  indent : Nat
  chars : List Char
  deriving DecidableEq, Repr, Inhabited

/-- Whether a character is a blank. -/
def isBlank (c : Char) : Bool := c == ' ' || c == '\t'

/-- Whether a quote that follows a character starts a string there. -/
def opensAfter (before : Char) : Bool := isBlank before || ['[', '\x7b', ',', ':', '-'].contains before

/-- Cuts the comment off a line: from a `#` behind a blank on, outside of quotes. `before` is the
character in front, `quote` the quote of the string that the text is in. -/
def withoutComment (before : Char) (quote : Option Char) : List Char → List Char
  | [] => []
  | c :: rest =>
    match quote with
    | some q =>
      if c = q then c :: withoutComment c none rest
      else if c = '\\' ∧ q = '"' then
        match rest with
        | next :: rest => c :: next :: withoutComment next quote rest
        | [] => [c]
      else c :: withoutComment c quote rest
    | none =>
      if c = '#' ∧ isBlank before then []
      else if (c = '"' ∨ c = '\x27') ∧ opensAfter before then c :: withoutComment c (some c) rest
      else c :: withoutComment c none rest

/-- A text without blanks at its end. -/
def trimEnd (chars : List Char) : List Char := (chars.reverse.dropWhile isBlank).reverse

/-- The line of a text; none if it says nothing. -/
def Line.ofChars? (chars : List Char) : Option Line :=
  let content := trimEnd (withoutComment ' ' none chars)
  let indent := (content.takeWhile (· == ' ')).length
  if content.isEmpty then none else some ⟨indent, content.drop indent⟩

/-- The lines of a text that say something. -/
def linesOf (text : String) : List Line :=
  (Text.lines text.toList).filterMap Line.ofChars?

/-- The value of a word without quotes. -/
def word? (chars : List Char) : Option SettingValue :=
  let word := String.ofList chars
  if ["", "~", "null"].contains word then some .nothing
  else if word = "true" then some (.truth true)
  else if word = "false" then some (.truth false)
  else if isUnwritable word then none
  else
    match chars with
    | '0' :: 'x' :: digits => inBase 16 digits
    | '0' :: 'o' :: digits => inBase 8 digits
    | _ =>
      match Scalar.integer? chars with
      | some value => some (.integer value)
      | none =>
        if chars.any Char.isDigit then
          match Scalar.real? chars with
          | some value => some (.real value)
          | none => some (.text word)
        else some (.text word)
where
  /-- Words for infinity and no number. No setting may have such a value. -/
  isUnwritable (word : String) : Bool :=
    [".inf", ".Inf", ".INF", "+.inf", "+.Inf", "+.INF", "-.inf", "-.Inf", "-.INF", ".nan", ".NaN",
      ".NAN"].contains word
  /-- An integer in another base, else the word. -/
  inBase (base : Nat) (digits : List Char) : Option SettingValue :=
    let (isNegative, magnitude) := Scalar.splitSign digits
    match (Scalar.digits? base magnitude).map (Scalar.signed isNegative) with
    | some value =>
      if Scalar.fits value then some (.integer value) else some (.text (String.ofList chars))
    | none => some (.text (String.ofList chars))

/-- Reads a string in single quotes behind the first; a quote in it is written twice. -/
def readSingle (seen : List Char) : List Char → Option (String × List Char)
  | [] => none
  | '\x27' :: '\x27' :: rest => readSingle ('\x27' :: seen) rest
  | '\x27' :: rest => some (String.ofList seen.reverse, rest)
  | c :: rest => readSingle (c :: seen) rest

/-- The character of an escape with one letter. -/
def escapedChar? (letter : Char) : Option Char :=
  match letter with
  | '0' => some '\x00'
  | 'a' => some '\x07'
  | 'v' => some '\x0b'
  | 'e' => some '\x1b'
  | ' ' => some ' '
  | '/' => some '/'
  | 'N' => some '\x85'
  | '_' => some '\xa0'
  | 'L' => some '\u2028'
  | 'P' => some '\u2029'
  | letter => Toml.escapedChar? letter

/-- The character behind a backslash, and the rest. -/
def readEscape : List Char → Option (Char × List Char)
  | 'x' :: rest => do return (← Toml.codePoint? 2 rest, rest.drop 2)
  | 'u' :: rest => do return (← Toml.codePoint? 4 rest, rest.drop 4)
  | 'U' :: rest => do return (← Toml.codePoint? 8 rest, rest.drop 8)
  | letter :: rest => do return (← escapedChar? letter, rest)
  | [] => none

/-- Reads a string in double quotes behind the first. -/
def readDouble : Nat → List Char → List Char → Option (String × List Char)
  | 0, _, _ => none
  | _ + 1, _, [] => none
  | _ + 1, seen, '"' :: rest => some (String.ofList seen.reverse, rest)
  | fuel + 1, seen, '\\' :: rest =>
    match readEscape rest with
    | some (escaped, rest) => readDouble fuel (escaped :: seen) rest
    | none => none
  | fuel + 1, seen, c :: rest => readDouble fuel (c :: seen) rest

/-- Reads a string with its quotes; none if there are no quotes. -/
def readQuoted? (chars : List Char) : Option (Option (String × List Char)) :=
  match chars with
  | '"' :: rest => some (readDouble (rest.length + 1) [] rest)
  | '\x27' :: rest => some (readSingle [] rest)
  | _ => none

/-- Marks that no word without quotes starts with. -/
def marks : List Char :=
  [',', '[', ']', '\x7b', '\x7d', '#', '&', '*', '!', '|', '>', '\x27', '"', '%', '@', '\x60',
    '\t']

/-- Whether a word without quotes may start with this text. -/
def startsWord (chars : List Char) : Bool :=
  match chars with
  | [] => false
  | c :: rest =>
    if ['-', '?', ':'].contains c then !(rest.head?.map isBlank).getD true
    else !marks.contains c

/-- Takes a word without quotes off. It ends where a colon with a blank behind it, or inside of
brackets their marks, come. -/
def takeWord (nested : Bool) : List Char → List Char × List Char
  | [] => ([], [])
  | c :: rest =>
    let ends :=
      (c == ':' && (rest.head?.map fun next =>
          isBlank next || (nested && [',', '[', ']', '\x7b', '\x7d'].contains next)).getD true)
        || (nested && [',', '[', ']', '\x7b', '\x7d'].contains c)
    if ends then ([], c :: rest)
    else
      let (word, behind) := takeWord nested rest
      (c :: word, behind)

/-- The text without leading blanks. -/
def skipBlanks (chars : List Char) : List Char := chars.dropWhile isBlank

/-- Reads a scalar: a string in quotes, or a word. -/
def readScalar (nested : Bool) (chars : List Char) : Option (SettingValue × List Char) :=
  match readQuoted? chars with
  | some quoted => quoted.map fun (text, rest) => (.text text, rest)
  | none =>
    if startsWord chars then
      let (word, rest) := takeWord nested chars
      (word? (trimEnd word)).map fun value => (value, rest)
    else none

/-- The name that a scalar is as a key. -/
def nameOf? (written : List Char) : SettingValue → Option String
  | .text text => some text
  | .integer value => some (toString value)
  | .truth value => some (toString value)
  | .real _ => some (String.ofList (trimEnd written))
  | _ => none

/-- Reads a key and its colon. -/
def readKey (nested : Bool) (chars : List Char) : Option (String × List Char) := do
  let (value, rest) ← readScalar nested chars
  let name ← nameOf? (chars.take (chars.length - rest.length)) value
  match skipBlanks rest with
  | ':' :: rest => return (name, rest)
  | _ => none

/-- One more member, if its name is new. -/
def addMember? (name : String) (value : SettingValue) (seen : List (String × SettingValue)) :
    Option (List (String × SettingValue)) :=
  if seen.any fun entry => entry.1 == name then none else some (seen ++ [(name, value)])

mutual

/-- Reads a value inside of brackets or braces. -/
def readNested : Nat → List Char → Option (SettingValue × List Char)
  | 0, _ => none
  | fuel + 1, chars =>
    match skipBlanks chars with
    | '[' :: rest => readItems fuel [] rest
    | '\x7b' :: rest => readMembers fuel [] rest
    | rest => readScalar true rest

/-- Reads the items of a sequence in brackets. -/
def readItems : Nat → List SettingValue → List Char → Option (SettingValue × List Char)
  | 0, _, _ => none
  | fuel + 1, seen, chars =>
    match skipBlanks chars with
    | ']' :: rest => some (.list seen.reverse, rest)
    | chars =>
      match readNested fuel chars with
      | none => none
      | some (item, rest) =>
        match skipBlanks rest with
        | ',' :: rest => readItems fuel (item :: seen) rest
        | ']' :: rest => some (.list (item :: seen).reverse, rest)
        | _ => none

/-- Reads the members of a mapping in braces. A key without a colon has no value. -/
def readMembers : Nat → List (String × SettingValue) → List Char → Option (SettingValue × List Char)
  | 0, _, _ => none
  | fuel + 1, seen, chars =>
    match skipBlanks chars with
    | '\x7d' :: rest => some (.table seen, rest)
    | chars =>
      match readKey true chars with
      | none => none
      | some (name, rest) =>
        match readMemberValue fuel (skipBlanks rest) with
        | none => none
        | some (value, rest) =>
          match addMember? name value seen with
          | none => none
          | some members =>
            match skipBlanks rest with
            | ',' :: rest => readMembers fuel members rest
            | '\x7d' :: rest => some (.table members, rest)
            | _ => none

/-- Reads the value of a member, which may be missing. -/
def readMemberValue : Nat → List Char → Option (SettingValue × List Char)
  | 0, _ => none
  | fuel + 1, chars =>
    match chars with
    | ',' :: _ => some (.nothing, chars)
    | '\x7d' :: _ => some (.nothing, chars)
    | chars => readNested fuel chars

end

/-- Reads a value on one line, which it fills. -/
def readInline (chars : List Char) : Option SettingValue := do
  let (value, rest) ← match chars with
    | '[' :: _ => readNested (2 * chars.length + 2) chars
    | '\x7b' :: _ => readNested (2 * chars.length + 2) chars
    | _ => readScalar false chars
  guard (skipBlanks rest).isEmpty
  return value

/-- The text of an item of a sequence, behind its dash and blanks, and how far it is indented
more than the dash. -/
def itemOf? (chars : List Char) : Option (Nat × List Char) :=
  match chars with
  | ['-'] => some (1, [])
  | '-' :: ' ' :: rest =>
    let content := rest.dropWhile (· == ' ')
    some (2 + (rest.length - content.length), content)
  | _ => none

mutual

/-- Reads a value by indentation from its first line on. -/
def readBlock : Nat → List Line → Option (SettingValue × List Line)
  | 0, _ => none
  | _ + 1, [] => some (.nothing, [])
  | fuel + 1, line :: rest =>
    if (itemOf? line.chars).isSome then readSequence fuel line.indent [] (line :: rest)
    else if (readKey false line.chars).isSome then readMapping fuel line.indent [] (line :: rest)
    else (readInline line.chars).map fun value => (value, rest)

/-- Reads the items of a sequence at an indentation. -/
def readSequence : Nat → Nat → List SettingValue → List Line → Option (SettingValue × List Line)
  | 0, _, _, _ => none
  | _ + 1, _, seen, [] => some (.list seen.reverse, [])
  | fuel + 1, indent, seen, line :: rest =>
    if line.indent < indent then some (.list seen.reverse, line :: rest)
    else if indent < line.indent then none
    else
      match itemOf? line.chars with
      | none => some (.list seen.reverse, line :: rest)
      | some (_, []) =>
        match readDeeper fuel indent rest with
        | some (item, rest) => readSequence fuel indent (item :: seen) rest
        | none => none
      | some (more, content) =>
        match readBlock fuel (⟨indent + more, content⟩ :: rest) with
        | some (item, rest) => readSequence fuel indent (item :: seen) rest
        | none => none

/-- Reads the members of a mapping at an indentation. -/
def readMapping : Nat → Nat → List (String × SettingValue) → List Line →
    Option (SettingValue × List Line)
  | 0, _, _, _ => none
  | _ + 1, _, seen, [] => some (.table seen, [])
  | fuel + 1, indent, seen, line :: rest =>
    if line.indent < indent then some (.table seen, line :: rest)
    else if indent < line.indent then none
    else
      match readKey false line.chars with
      | none => none
      | some (name, behind) =>
        match readMappingValue fuel indent (skipBlanks behind) rest with
        | none => none
        | some (value, rest) =>
          match addMember? name value seen with
          | some members => readMapping fuel indent members rest
          | none => none

/-- Reads the value of a member: behind its colon, or on deeper lines, where a sequence need not
be deeper. -/
def readMappingValue : Nat → Nat → List Char → List Line → Option (SettingValue × List Line)
  | 0, _, _, _ => none
  | fuel + 1, indent, [], rest =>
    match rest with
    | next :: _ =>
      if next.indent = indent ∧ (itemOf? next.chars).isSome then readSequence fuel indent [] rest
      else readDeeper fuel indent rest
    | [] => some (.nothing, [])
  | _ + 1, _, behind, rest => (readInline behind).map fun value => (value, rest)

/-- Reads a value on lines deeper than an indentation; without such lines there is none. -/
def readDeeper : Nat → Nat → List Line → Option (SettingValue × List Line)
  | 0, _, _ => none
  | _ + 1, _, [] => some (.nothing, [])
  | fuel + 1, indent, next :: rest =>
    if indent < next.indent then readBlock fuel (next :: rest)
    else some (.nothing, next :: rest)

end

/-- The lines behind the mark that starts a document. -/
def skipStart : List Line → List Line
  | ⟨0, ['-', '-', '-']⟩ :: rest => rest
  | lines => lines

/-- The lines in front of the mark that ends a document, if nothing comes behind it. -/
def cutEnd (lines : List Line) : List Line :=
  match lines.getLast? with
  | some ⟨0, ['.', '.', '.']⟩ => lines.dropLast
  | _ => lines

/-- The members of a whole text, which holds a mapping or nothing at all. -/
def read? (text : String) : Option (List (String × SettingValue)) :=
  match linesOf text with
  | [] => some []
  | lines =>
    let body := cutEnd (skipStart lines)
    match readBlock (3 * text.length + 3) body with
    | some (.table members, []) => some members
    | _ => none

end ExactEdit.Yaml
