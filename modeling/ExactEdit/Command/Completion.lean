import ExactEdit.Command.Invocation

/-! # Completion scripts

For every shell a script that completes the names of commands.
-/

namespace ExactEdit

/-- The name of the program. -/
def programName : String := "scopedit"

namespace Shell

/-- The name of the file that a shell looks for. -/
def scriptName : Shell → String
  | bash => programName ++ ".bash"
  | zsh => "_" ++ programName
  | fish => programName ++ ".fish"
  | powerShell => "_" ++ programName ++ ".ps1"
  | elvish => programName ++ ".elv"

/-- The names of all commands in a row. -/
def nameList : String := String.intercalate " " Invocation.commandNames

/-- The script of a shell. -/
def script : Shell → String
  | bash => s!"complete -W \"{nameList}\" {programName}\n"
  | zsh => s!"#compdef {programName}\n_arguments \"1: :({nameList})\" \"*: :_files\"\n"
  | fish =>
    s!"complete -c {programName} -n __fish_use_subcommand -f -a \"{nameList}\"\n"
  | powerShell =>
    s!"Register-ArgumentCompleter -Native -CommandName {programName} -ScriptBlock \x7b\n"
      ++ "    param($word)\n"
      ++ s!"    -split \"{nameList}\" | Where-Object \x7b $_ -like \"$word*\" \x7d\n"
      ++ "\x7d\n"
  | elvish =>
    s!"set edit:completion:arg-completer[{programName}] = \x7b|@words| put {nameList} \x7d\n"

end Shell

end ExactEdit
