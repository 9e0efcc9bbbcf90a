import ExactEdit.Command.Completion
import ExactEdit.Command.Ending
import ExactEdit.Command.Host
import ExactEdit.Editor.Edit
import ExactEdit.Request.Json

/-! # Performing commands

Commands that work on a file load the settings first, then what the arguments name, and open the
file last. Nothing here depends on how the command is reported.

## Main definitions

* `Command.perform` — performs a command on a host
-/

namespace ExactEdit

/-- A path inside a directory. -/
def pathIn (directory name : String) : String :=
  if directory.isEmpty || directory.endsWith "/" then directory ++ name
  else directory ++ "/" ++ name

/-- The end of a command whose file of arguments could not be read. -/
def Ending.ofStorageError (error : StorageError) : Ending :=
  .aborted error.attempt (some error.cause)

/-- The end of a command that failed. -/
def Ending.ofFailure : Failure → Ending
  | .refused refusal => .refused refusal
  | .stopped fault => .stopped fault

/-- The end of a command with a result. -/
def Ending.ofResult {α : Type} (finding : α → Finding) : Except Failure α → Ending
  | .ok result => .found (finding result)
  | .error failure => .ofFailure failure

/-- The end of a batch with a result. -/
def Ending.ofBatch : Except Failure BatchReport → Ending
  | .ok report => .found (.batchMade report)
  | .error (.refused refusal) => .batchRefused refusal
  | .error (.stopped fault) => .stopped fault

namespace Command

variable {m : Type → Type} [Monad m]

/-- The text that an argument stands for. -/
def textOf (host : Host m) : TextOrigin → m (Except StorageError String)
  | .inline text => return .ok text
  | .file path => host.read path

/-- An editor of a file under some settings. Without a language that of the path is taken. -/
def openEditor (host : Host m) (parser : Parser) (settings : Settings) (file : String)
    (language : Option Language) : m (Except Refusal Editor) := do
  let opened ← Editor.openFile host.toStorage parser file (language <|> Language.ofPath? file)
  return opened.map fun editor => editor.withSettings settings

/-- Goes on with the settings of the host. -/
def withSettings (host : Host m) (next : Settings → m Ending) : m Ending := do
  match ← host.loadSettings with
  | .error error => return .aborted error.message none
  | .ok settings => next settings

/-- Goes on with an editor of a file and a request. -/
def withRequest (host : Host m) (parser : Parser) (arguments : EditArguments)
    (next : Editor → Request → m Ending) : m Ending :=
  withSettings host fun settings => do
    match ← textOf host arguments.oldText with
    | .error error => return .ofStorageError error
    | .ok oldText =>
      match ← textOf host arguments.newText with
      | .error error => return .ofStorageError error
      | .ok newText =>
        match ← openEditor host parser settings arguments.file arguments.language with
        | .error refusal => return .refused refusal
        | .ok editor => next editor ⟨oldText, newText, arguments.constraint⟩

/-- Makes an edit. -/
def performEdit (host : Host m) (parser : Parser) (arguments : EditArguments) : m Ending :=
  withRequest host parser arguments fun editor request => do
    let (result, _) ← editor.edit host.toStorage request
    return .ofResult .edited result

/-- Previews an edit. -/
def performPreview (host : Host m) (parser : Parser) (arguments : EditArguments) : m Ending :=
  withRequest host parser arguments fun editor request =>
    return .ofResult .previewed (editor.preview request).1

/-- Assesses an edit. -/
def performValidate (host : Host m) (parser : Parser) (arguments : EditArguments) : m Ending :=
  withRequest host parser arguments fun editor request =>
    return .ofResult (.assessed (editor.path.getD "")) (editor.validate request).1

/-- Makes the requests in a file. -/
def performBatch (host : Host m) (parser : Parser) (file requests : String)
    (language : Option Language) : m Ending :=
  withSettings host fun settings => do
    match ← host.read requests with
    | .error error => return .ofStorageError error
    | .ok text =>
      match Request.readAll? text with
      | none => return .aborted ("Failed to parse operations in " ++ requests) none
      | some operations =>
        match ← openEditor host parser settings file language with
        | .error refusal => return .batchRefused refusal
        | .ok editor =>
          let (result, _) ← editor.editAll host.toStorage operations
          return .ofBatch result

/-- Lists the scopes of a file. -/
def performScopes (host : Host m) (parser : Parser) (file : String)
    (language : Option Language) : m Ending :=
  withSettings host fun settings => do
    match ← openEditor host parser settings file language with
    | .error refusal => return .refused refusal
    | .ok editor => return .found (.scopesListed editor.language editor.scopes)

/-- Writes a settings file. One that is there is covered only by force. -/
def performInit (host : Host m) (directory : String) (force : Bool) : m Ending := do
  let path := pathIn directory "scopedit.toml"
  let isTaken ← host.isThere path
  if isTaken && !force then
    return .aborted s!"Config file already exists at {path}. Use --force to overwrite." none
  else if ← host.create path Settings.default.written then
    return .found (.settingsWritten path)
  else return .aborted "Failed to write config file" none

/-- Writes or shows a completion script. -/
def performCompletions (host : Host m) (shell : Shell) (directory : Option String)
    (shown : Bool) : m Ending := do
  match shown, directory with
  | true, _ => return .found (.scriptShown shell.script)
  | false, none => return .aborted "--out-dir is required unless --stdout is set" none
  | false, some directory =>
    let path := pathIn directory shell.scriptName
    if ← host.makeDirectories directory then
      if ← host.create path shell.script then return .found (.scriptWritten path)
      else return .aborted "generate completion file" none
    else return .aborted "create --out-dir" none

/-- Performs a command on a host. -/
def perform (host : Host m) (parser : Parser) : Command → m Ending
  | edit arguments => performEdit host parser arguments
  | preview arguments => performPreview host parser arguments
  | validate arguments => performValidate host parser arguments
  | batch file requests language => performBatch host parser file requests language
  | scopes file language => performScopes host parser file language
  | init directory force => performInit host directory force
  | completions shell directory shown => performCompletions host shell directory shown

end Command

end ExactEdit
