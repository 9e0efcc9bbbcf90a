import ExactEdit.Command.Usage
import ExactEdit.Syntax.Language

/-! # Grammars of arguments

The grammar of a command lists its options and its places for other arguments. Arguments are read
one by one. An option with a value may have it behind an equals sign or as the next argument,
which must not look like an option; behind two dashes nothing does. A value is checked when the
argument behind it is met, or at the end, so a later argument that is unknown is reported first.

## Main definitions

* `OptionRule`, `Grammar` — options and places
* `Matches` — what was given
* `Grammar.read` — reads all arguments
-/

namespace ExactEdit

/-- What an argument may have as its value. -/
inductive ValueRule where
  /-- Any text. -/
  | text
  /-- A text that is not empty. -/
  | path
  /-- A name of a language. -/
  | language
  /-- One of some words. -/
  | choice (words : List String)
  deriving DecidableEq, Repr, Inhabited

/-- What an option does. -/
inductive OptionRole where
  /-- It is given or not. -/
  | mark
  /-- It has a value. -/
  | value (rule : ValueRule)
  /-- It ends the reading. -/
  | stop (told : UsageError)
  deriving DecidableEq, Repr, Inhabited

/-- An option: its name, a letter that stands for it, and what it does. -/
structure OptionRule where
  name : String
  letter : Option Char
  role : OptionRole
  deriving DecidableEq, Repr, Inhabited

/-- A place for an argument that is no option. -/
structure PlaceRule where
  name : String
  rule : ValueRule
  deriving DecidableEq, Repr, Inhabited

/-- The options and places of a command, and pairs of options that exclude each other. -/
structure Grammar where
  options : List OptionRule
  places : List PlaceRule
  exclusive : List (String × String)
  deriving DecidableEq, Repr, Inhabited

/-- What was given, by name. Marks have the empty text as their value. -/
abbrev Matches : Type := List (String × String)

namespace Matches

/-- The value that was given for a name. -/
def get? (found : Matches) (name : String) : Option String :=
  (found.find? fun entry => entry.1 == name).map (·.2)

/-- Whether something was given for a name. -/
def has (found : Matches) (name : String) : Bool := (found.get? name).isSome

/-- The value that must be given for a name. -/
def require (found : Matches) (name : String) : Except UsageError String :=
  match found.get? name with
  | some value => .ok value
  | none => .error (.missingArgument name)

end Matches

/-- Checks a value. -/
def ValueRule.check (rule : ValueRule) (name value : String) : Except UsageError Unit :=
  match rule with
  | text => .ok ()
  | path => if value.isEmpty then .error (.missingValue name) else .ok ()
  | language =>
    match Language.parse value with
    | .ok _ => .ok ()
    | .error _ => .error (.badValue name value)
  | choice words => if words.contains value then .ok () else .error (.missingValue name)

namespace Grammar

/-- An argument whose value is not settled: none may have come, and what came is not checked. -/
structure Pending where
  name : String
  rule : ValueRule
  value : Option String
  deriving DecidableEq, Repr, Inhabited

/-- What was read so far. -/
structure Progress where
  found : Matches
  pending : Option Pending
  places : List PlaceRule
  /-- Whether two dashes were met, behind which nothing is an option. -/
  plain : Bool
  deriving DecidableEq, Repr, Inhabited

/-- Adds what was given for a name, once. -/
def accept (progress : Progress) (name value : String) (rule : ValueRule) :
    Except UsageError Progress :=
  if progress.found.has name then .error (.conflict name name)
  else do
    rule.check name value
    return { progress with found := progress.found ++ [(name, value)], pending := none }

/-- Settles the pending argument, if there is one. -/
def settle (progress : Progress) : Except UsageError Progress :=
  match progress.pending with
  | none => .ok progress
  | some ⟨name, _, none⟩ => .error (.missingValue name)
  | some ⟨name, rule, some value⟩ => accept { progress with pending := none } name value rule

/-- Reads an option that was named, with the value attached to it. -/
def readOption (progress : Progress) (option : OptionRule) (attached : Option String) :
    Except UsageError Progress :=
  match option.role, attached with
  | .value rule, some value => do accept (← settle progress) option.name value rule
  | .value rule, none => do
    return { ← settle progress with pending := some ⟨option.name, rule, none⟩ }
  | _, some _ => .error (.needlessValue option.name)
  | .mark, none => do accept (← settle progress) option.name "" .text
  | .stop told, none => do
    let _ ← settle progress
    .error told

/-- Reads an option by its name. -/
def readLong (grammar : Grammar) (progress : Progress) (chars : List Char) :
    Except UsageError Progress :=
  let name := String.ofList (chars.takeWhile (· != '='))
  let attached := match chars.dropWhile (· != '=') with
    | '=' :: value => some (String.ofList value)
    | _ => none
  match grammar.options.find? fun option => option.name == name with
  | some option => readOption progress option attached
  | none => .error (.unknownArgument ("--" ++ name))

/-- Reads options by their letters. No option with a value has a letter. -/
def readLetters (grammar : Grammar) (progress : Progress) :
    List Char → Except UsageError Progress
  | [] => .ok progress
  | letter :: rest =>
    match grammar.options.find? fun option => option.letter == some letter with
    | some option => do readLetters grammar (← readOption progress option none) rest
    | none => .error (.unknownArgument (String.ofList ['-', letter]))

/-- Reads an argument that is no option. -/
def readPlace (progress : Progress) (argument : String) : Except UsageError Progress :=
  match progress.places with
  | [] => .error (.unknownArgument argument)
  | place :: rest => do
    return { ← settle progress with
      pending := some ⟨place.name, place.rule, some argument⟩, places := rest }

/-- Reads an argument that does not look like an option: the value of the option in front of it,
if that waits for one. -/
def readWord (progress : Progress) (argument : String) : Except UsageError Progress :=
  match progress.pending with
  | some ⟨name, rule, none⟩ =>
    .ok { progress with pending := some ⟨name, rule, some argument⟩ }
  | _ => readPlace progress argument

/-- Reads an argument. -/
def readArgument (grammar : Grammar) (progress : Progress) (argument : String) :
    Except UsageError Progress :=
  if progress.plain then readPlace progress argument
  else
    match argument.toList with
    | ['-', '-'] => .ok { progress with plain := true }
    | '-' :: '-' :: rest => readLong grammar progress rest
    | '-' :: letter :: rest => readLetters grammar progress (letter :: rest)
    | _ => readWord progress argument

/-- The first pair of options that exclude each other and were both given. -/
def excluded? (grammar : Grammar) (found : Matches) : Option (String × String) :=
  grammar.exclusive.find? fun (one, other) => found.has one && found.has other

/-- Reads all arguments. -/
def read (grammar : Grammar) (arguments : List String) : Except UsageError Matches := do
  let start : Progress := ⟨[], none, grammar.places, false⟩
  let progress ← settle (← arguments.foldlM (readArgument grammar) start)
  match grammar.excluded? progress.found with
  | some (one, other) => .error (.conflict one other)
  | none => return progress.found

end Grammar

end ExactEdit
