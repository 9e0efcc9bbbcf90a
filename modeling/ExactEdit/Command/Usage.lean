/-! # Usage

Why the arguments of the program name no command to run: a fault in them, or a wish to be told
about the program instead.
-/

namespace ExactEdit

/-- Why arguments name no command. -/
inductive UsageError where
  /-- Help was asked for. -/
  | help
  /-- The version was asked for. -/
  | version
  /-- There are no arguments. -/
  | noArguments
  /-- There are options but no command. -/
  | noCommand
  /-- There is no such command. -/
  | unknownCommand (name : String)
  /-- There is no such option, or no place for such an argument. -/
  | unknownArgument (written : String)
  /-- The argument must be given. -/
  | missingArgument (name : String)
  /-- The argument needs a value, or one out of a few. -/
  | missingValue (name : String)
  /-- The option takes no value. -/
  | needlessValue (name : String)
  /-- The argument does not take this value. -/
  | badValue (name value : String)
  /-- Both arguments cannot be given, or one cannot be given twice. -/
  | conflict (name other : String)
  deriving DecidableEq, Repr, Inhabited

namespace UsageError

/-- The exit code: to be told about the program is no failure. -/
def exitCode : UsageError → Nat
  | help => 0
  | version => 0
  | _ => 2

/-- The message for a reader. -/
def message : UsageError → String
  | help => "help was asked for"
  | version => "the version was asked for"
  | noArguments => "no arguments"
  | noCommand => "no command"
  | unknownCommand name => s!"unknown command `{name}`"
  | unknownArgument written => s!"unexpected argument `{written}`"
  | missingArgument name => s!"`{name}` must be given"
  | missingValue name => s!"`{name}` needs a value"
  | needlessValue name => s!"`{name}` takes no value"
  | badValue name value => s!"`{name}` does not take the value `{value}`"
  | conflict name other => s!"`{name}` cannot be used with `{other}`"

end UsageError

end ExactEdit
