import ExactEdit.Command.Grammar
import ExactEdit.Request.Constraint

/-! # Invocations

An invocation of the program is a command with its arguments, and the choice of how to report.
The arguments of the program start with options that every command has, followed by the name of a
command and its own arguments.

## Main definitions

* `Command`, `Invocation` — what the program is to do
* `Invocation.read` — the invocation that arguments stand for
-/

namespace ExactEdit

/-- How to report: without what is not essential, without colours, as JSON. -/
structure ReportStyle where
  quiet : Bool
  plain : Bool
  json : Bool
  deriving DecidableEq, Repr, Inhabited

/-- Where a text comes from: an argument, or a file. -/
inductive TextOrigin where
  | inline (text : String)
  | file (path : String)
  deriving DecidableEq, Repr, Inhabited

/-- An edit of a file. -/
structure EditArguments where
  file : String
  oldText : TextOrigin
  newText : TextOrigin
  language : Option Language
  constraint : Constraint
  deriving DecidableEq, Repr, Inhabited

/-- The shells that completion scripts are made for. -/
inductive Shell where
  | bash
  | zsh
  | fish
  | powerShell
  | elvish
  deriving DecidableEq, Repr, Inhabited

namespace Shell

/-- The name of a shell. -/
def name : Shell → String
  | bash => "bash"
  | zsh => "zsh"
  | fish => "fish"
  | powerShell => "power-shell"
  | elvish => "elvish"

/-- All shells. -/
def all : List Shell := [bash, zsh, fish, powerShell, elvish]

/-- The shell with a name. -/
def ofName? (name : String) : Option Shell := all.find? fun shell => shell.name == name

end Shell

/-- What the program can do. -/
inductive Command where
  /-- Makes an edit. -/
  | edit (arguments : EditArguments)
  /-- Shows the difference that an edit would make. -/
  | preview (arguments : EditArguments)
  /-- Assesses an edit. -/
  | validate (arguments : EditArguments)
  /-- Makes the requests in a file, all or none. -/
  | batch (file requests : String) (language : Option Language)
  /-- Lists the scopes of a file. -/
  | scopes (file : String) (language : Option Language)
  /-- Writes a settings file into a directory. -/
  | init (directory : String) (force : Bool)
  /-- Writes a completion script into a directory, or shows it. -/
  | completions (shell : Shell) (directory : Option String) (shown : Bool)
  deriving DecidableEq, Repr, Inhabited

/-- A command and how to report what comes of it. -/
structure Invocation where
  style : ReportStyle
  command : Command
  deriving DecidableEq, Repr, Inhabited

namespace Invocation

/-- The options that every command has. -/
def sharedOptions : List OptionRule :=
  [⟨"no-color", none, .mark⟩, ⟨"quiet", none, .mark⟩, ⟨"json", none, .mark⟩,
    ⟨"help", some 'h', .stop .help⟩]

/-- The options in front of a command. -/
def rootOptions : List OptionRule := sharedOptions ++ [⟨"version", some 'V', .stop .version⟩]

/-- The place for the file of a command. -/
def filePlace : PlaceRule := ⟨"FILE", .path⟩

/-- The option for a language. -/
def languageOption : OptionRule := ⟨"lang", none, .value .language⟩

/-- The arguments of an edit. -/
def editGrammar : Grammar where
  options :=
    [⟨"old", none, .value .text⟩, ⟨"old-file", none, .value .path⟩,
      ⟨"new", none, .value .text⟩, ⟨"new-file", none, .value .path⟩, languageOption,
      ⟨"within-function", none, .value .text⟩, ⟨"within-class", none, .value .text⟩,
      ⟨"within-method", none, .value .text⟩, ⟨"within-interface", none, .value .text⟩,
      ⟨"within-namespace", none, .value .text⟩, ⟨"allow-multiple", none, .mark⟩,
      ⟨"allow-indent-change", none, .mark⟩] ++ sharedOptions
  places := [filePlace]
  exclusive := [("old", "old-file"), ("new", "new-file")]

/-- The arguments of a batch. -/
def batchGrammar : Grammar where
  options := [⟨"ops", none, .value .path⟩, languageOption] ++ sharedOptions
  places := [filePlace]
  exclusive := []

/-- The arguments for a list of scopes. -/
def scopesGrammar : Grammar where
  options := languageOption :: sharedOptions
  places := [filePlace]
  exclusive := []

/-- The arguments for a new settings file. -/
def initGrammar : Grammar where
  options := ⟨"force", none, .mark⟩ :: sharedOptions
  places := [⟨"PATH", .path⟩]
  exclusive := []

/-- The arguments for a completion script. -/
def completionsGrammar : Grammar where
  options := [⟨"out-dir", none, .value .path⟩, ⟨"stdout", none, .mark⟩] ++ sharedOptions
  places := [⟨"SHELL", .choice (Shell.all.map Shell.name)⟩]
  exclusive := []

/-- The origin of a text that is given by one of two options. -/
def originOf (found : Matches) (inline file : String) : Except UsageError TextOrigin :=
  match found.get? inline, found.get? file with
  | some text, _ => .ok (.inline text)
  | none, some path => .ok (.file path)
  | none, none => .error (.missingArgument inline)

/-- The language that was given. -/
def languageOf (found : Matches) : Option Language :=
  (found.get? "lang").bind fun name => (Language.parse name).toOption

/-- The constraint that was given. -/
def constraintOf (found : Matches) : Constraint :=
  { withinFunction := found.get? "within-function"
    withinClass := found.get? "within-class"
    withinMethod := found.get? "within-method"
    withinInterface := found.get? "within-interface"
    withinNamespace := found.get? "within-namespace"
    requireUnique := !found.has "allow-multiple"
    allowIndentationChanges := found.has "allow-indent-change" }

/-- The arguments of an edit that were given. -/
def editArguments (found : Matches) : Except UsageError EditArguments := do
  return {
    file := ← found.require "FILE"
    oldText := ← originOf found "old" "old-file"
    newText := ← originOf found "new" "new-file"
    language := languageOf found
    constraint := constraintOf found }

/-- A batch that was given. -/
def batchCommand (found : Matches) : Except UsageError Command := do
  return .batch (← found.require "FILE") (← found.require "ops") (languageOf found)

/-- A list of scopes that was asked for. -/
def scopesCommand (found : Matches) : Except UsageError Command := do
  return .scopes (← found.require "FILE") (languageOf found)

/-- A settings file that was asked for. -/
def initCommand (found : Matches) : Command :=
  .init ((found.get? "PATH").getD ".") (found.has "force")

/-- A completion script that was asked for. -/
def completionsCommand (found : Matches) : Except UsageError Command := do
  let name ← found.require "SHELL"
  match Shell.ofName? name with
  | some shell => return .completions shell (found.get? "out-dir") (found.has "stdout")
  | none => .error (.missingValue "SHELL")

/-- The names of commands with their grammars, and the command that arguments make. -/
def commands : List (String × Grammar × (Matches → Except UsageError Command)) :=
  [("edit", editGrammar, fun found => (editArguments found).map .edit),
    ("preview", editGrammar, fun found => (editArguments found).map .preview),
    ("validate", editGrammar, fun found => (editArguments found).map .validate),
    ("batch", batchGrammar, batchCommand),
    ("scopes", scopesGrammar, scopesCommand),
    ("init", initGrammar, fun found => .ok (initCommand found)),
    ("completions", completionsGrammar, completionsCommand)]

/-- The names of all commands, the one for help included. -/
def commandNames : List String := commands.map (·.1) ++ ["help"]

/-- What comes of the command for help: help, on a command if one is named. -/
def helpFor : List String → UsageError
  | [] => .help
  | [name] => if commandNames.contains name then .help else .unknownCommand name
  | name :: more :: _ =>
    if commandNames.contains name then .unknownCommand more else .unknownCommand name

/-- How to report, from the options in front of the command and those behind it. -/
def styleOf (front behind : Matches) : ReportStyle :=
  let given (name : String) := front.has name || behind.has name
  ⟨given "quiet", given "no-color", given "json"⟩

/-- Reads the name of a command and its arguments. -/
def readCommand (front : Matches) (name : String) (arguments : List String) :
    Except UsageError Invocation :=
  match commands.find? fun entry => entry.1 == name with
  | some (_, grammar, make) => do
    let behind ← grammar.read arguments
    return ⟨styleOf front behind, ← make behind⟩
  | none => .error (.unknownCommand name)

/-- The options in front of a command. There are no places for other arguments. -/
def rootGrammar : Grammar := ⟨rootOptions, [], []⟩

/-- Reads options up to the name of a command. `plain` tells that two dashes were met: a command
behind them is no command. -/
def readRoot (front : Matches) (plain : Bool) : List String → Except UsageError Invocation
  | [] => .error (if front.isEmpty then .noArguments else .noCommand)
  | argument :: rest =>
    if plain then
      .error
        (if commandNames.contains argument then .unknownArgument argument
        else .unknownCommand argument)
    else if argument = "--" then readRoot front true rest
    else if argument.startsWith "-" ∧ argument ≠ "-" then do
      let progress ← rootGrammar.readArgument ⟨front, none, [], false⟩ argument
      readRoot progress.found false rest
    else if argument = "help" then .error (helpFor rest)
    else readCommand front argument rest

/-- The invocation that arguments stand for. -/
def read (arguments : List String) : Except UsageError Invocation := readRoot [] false arguments

end Invocation

end ExactEdit
