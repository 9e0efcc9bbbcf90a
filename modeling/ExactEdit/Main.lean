import ExactEdit.Command.Response
import ExactEdit.Syntax.Listing

/-! # The program

Reads the arguments, performs the command on this machine and prints what came of it. Parse trees
come from a parser outside of the program, in a parse listing whose path an environment variable
holds; without one, texts have no scopes.
-/

namespace ExactEdit.Program

/-- The reason of a failure on this machine. -/
def causeOf : IO.Error → String
  | .noFileOrDirectory .. => DiskError.notFound.message
  | .alreadyExists .. => DiskError.exists.message
  | .inappropriateType .. => DiskError.isDirectory.message
  | .permissionDenied .. => "Permission denied (os error 13)"
  | error => error.toString

/-- Reads a text file. -/
def readText (path : String) : IO (Except StorageError String) := do
  try
    return textOfFile path (← IO.FS.readBinFile path)
  catch
    | .noFileOrDirectory name code details =>
      let cause := causeOf (.noFileOrDirectory name code details)
      return .error (.ofMetadata path cause)
    | error => return .error (.ofRead path (causeOf error))

/-- The bytes of a file, if it can be read. -/
def readBytes (path : String) : IO (Option ByteArray) := do
  try
    return some (← IO.FS.readBinFile path)
  catch _ => return none

/-- Replaces a file. If that fails half way, its old bytes are put back. -/
def writeText (path text : String) : IO (Except StorageError Unit) := do
  let old ← readBytes path
  try
    IO.FS.writeFile path text
    return .ok ()
  catch error =>
    try
      if let some bytes := old then IO.FS.writeBinFile path bytes
    catch _ => pure ()
    return .error (.ofReplace path (causeOf error))

/-- Whether an action succeeds. -/
def succeeds (action : IO Unit) : IO Bool := do
  try
    action
    return true
  catch _ => return false

/-- Whether a path leads to something. -/
def isThere (path : String) : IO Bool := do
  try
    let _ ← IO.FS.Handle.mk path .read
    return true
  catch
    | .noFileOrDirectory .. => return false
    | _ => return true

/-- The environment variables that set something. -/
def settingVariables : List String :=
  ["SCOPEDIT__ENGINE__CONTEXT_LINES", "SCOPEDIT__ENGINE__COMMENT_RADIUS",
    "SCOPEDIT__ENGINE__SYNTAX_CHECKER", "SCOPEDIT__ENGINE__DETECT_EXTERNAL_CHANGES",
    "SCOPEDIT__PREVIEW__CONTEXT_LINES"]

/-- The environment variables that set something, with their values. -/
def environment : IO (List (String × String)) :=
  settingVariables.filterMapM fun name => do
    return (← IO.getEnv name).map fun value => (name, value)

/-- This machine. -/
def machine : Host IO where
  read := readText
  write := writeText
  isThere := isThere
  readBytes := readBytes
  create path text := succeeds (IO.FS.writeFile path text)
  makeDirectories path := succeeds (IO.FS.createDirAll path)
  environment := environment

/-- The environment variable with the path of a parse listing. -/
def listingVariable : String := "SCOPEDIT_PARSES"

/-- The parser of the program. -/
def parser : IO Parser := do
  let listing ← match ← IO.getEnv listingVariable with
    | none => pure none
    | some path => readBytes path
  let text := listing.bind String.fromUTF8?
  return Parser.ofListing ((text.bind ParseListing.read?).getD [])

/-- How to call the program. -/
def usage : String :=
  let names := String.intercalate "|" Invocation.commandNames
  s!"usage: {programName} [--json] [--quiet] [--no-color] <{names}> ...\n"

/-- The version of the program. -/
def version : String := s!"{programName} 0.1.0\n"

/-- Tells why the arguments name no command. -/
def tell : UsageError → IO Unit
  | .help => IO.print usage
  | .version => IO.print version
  | error => IO.eprint s!"error: {error.message}\n{usage}"

/-- The exit code of the program for an end without one of its own. -/
def failureCode : UInt32 := 7

/-- The exit code of a program that stopped. -/
def stopCode : UInt32 := 101

/-- Prints a response, and gives the exit code. -/
def report (response : Response) : IO UInt32 := do
  IO.print response.output.resultText
  IO.eprint response.output.messageText
  match response.outcome with
  | .exit code => return UInt32.ofNat code
  | .aborted _ => return failureCode
  | .stopped _ => return stopCode

/-- Runs the program. -/
def run (arguments : List String) : IO UInt32 := do
  match Invocation.read arguments with
  | .error error =>
    tell error
    return UInt32.ofNat error.exitCode
  | .ok invocation => report (← invocation.answer machine (← parser))

end ExactEdit.Program

/-- The entry of the program. -/
def main (arguments : List String) : IO UInt32 := ExactEdit.Program.run arguments
