import ExactEdit.Editor.Basic
import ExactEdit.Editor.Transaction
import ExactEdit.Storage.Basic

/-! # Making edits

An edit that may be made is written to the file of the editor, if it has one, and becomes its
text. A batch is first assessed as a whole against the text as it is, then made step by step in
memory, and written once; whatever fails on the way, the text from before comes back.

## Main definitions

* `Editor.openFile` — an editor of a file
* `Editor.edit` — one edit
* `Editor.editAll` — a batch of edits, all or none
-/

namespace ExactEdit

namespace Editor

variable {m : Type → Type} [Monad m]

/-- An editor of a file. -/
def openFile (storage : Storage m) (parser : Parser) (path : String) (language : Option Language) :
    m (Except Refusal Editor) := do
  match ← storage.read path with
  | .error error => return .error (.io "read" path error.message)
  | .ok text =>
    return (inMemory parser language text.toList).map fun editor => { editor with path := some path }

/-- The editor with another text and all that is derived from it. -/
def restage (editor : Editor) (chars : List Char) : Except Refusal Editor := do
  let source := Source.ofChars chars
  let scopes ← scopesOf editor.parser editor.language source
  return { editor with source, scopes }

/-- Whether the file still has the expected content id, if that is to be checked. -/
def checkUnchanged (storage : Storage m) (editor : Editor) (path expected : String) :
    m (Except Refusal Unit) := do
  if editor.settings.detectsExternalChanges then
    match ← storage.read path with
    | .error error => return .error (.io "re-read" path error.message)
    | .ok onDisk =>
      if ExactEdit.contentId onDisk = expected then return .ok ()
      else return .error (.fileChanged path)
  else return .ok ()

/-- Writes a text to the file, if there is one, and takes its content id. -/
def persist (storage : Storage m) (editor : Editor) (text expected : String) :
    m (Except Refusal Editor) := do
  let written := { editor with contentId := ExactEdit.contentId text }
  match editor.path with
  | none => return .ok written
  | some path =>
    match ← editor.checkUnchanged storage path expected with
    | .error refusal => return .error refusal
    | .ok () =>
      match ← storage.write path text with
      | .error error => return .error (.io "write" path error.message)
      | .ok () => return .ok written

/-- Writes a text and makes it the text of the editor. If it is written but cannot be parsed, the
editor keeps its old text under the new content id. -/
def commit (storage : Storage m) (editor : Editor) (chars : List Char) :
    m (Except Refusal Unit × Editor) := do
  match ← editor.persist storage (String.ofList chars) editor.contentId with
  | .error refusal => return (.error refusal, editor)
  | .ok written =>
    match written.restage chars with
    | .error refusal => return (.error refusal, written)
    | .ok restaged => return (.ok (), restaged)

/-- The report of an edit that was made. -/
def editReport (before after : String) (plan : Plan) (constraint : Constraint) : EditReport :=
  let place := (constraint.describe?.map (" in " ++ ·)).getD ""
  { success := true
    message := some s!"Replaced 1 occurrence at line {plan.line}{place}"
    error := none
    errorKind := none
    warnings := plan.warnings
    linesChanged := some (Diff.changedLines before after)
    preview := none
    assessment := some plan.assessment
    suggestions := [] }

/-- Makes one edit. -/
def edit (storage : Storage m) (editor : Editor) (request : Request) :
    m (Except Failure EditReport × Editor) := do
  match editor.plan request with
  | .error (.stopped fault) => return (.error (.stopped fault), editor.inPhase .validating)
  | .error (.refused refusal) => return (.error (.refused refusal), editor.inPhase .rejected)
  | .ok plan =>
    let after := editor.splice plan.range request.newText
    match ← editor.commit storage after with
    | (.error refusal, editor) => return (.error (.refused refusal), editor.inPhase .rejected)
    | (.ok (), edited) =>
      let report := editReport editor.content edited.content plan request.constraint
      return (.ok report, edited.inPhase .applied)

/-- Why a batch fails before anything is changed. -/
def batchFailure (index : Nat) : Failure → Failure
  | .refused refusal => .refused (.batch index refusal)
  | .stopped fault => .stopped fault

/-- Plans all requests against the text as it is, counting from `index`. What is told about them
is told with their numbers. -/
def planAll (editor : Editor) (index : Nat) : List Request → Except Failure (List String)
  | [] => .ok []
  | request :: rest =>
    match editor.plan request with
    | .error failure => .error (batchFailure index failure)
    | .ok plan => do
      let warnings ← planAll editor (index + 1) rest
      return plan.warnings.map (s!"operation {index}: " ++ ·) ++ warnings

/-- The place of a request in the text as it is now: the first occurrence that its constraint
allows. -/
def locate (editor : Editor) (request : Request) : Except Failure ByteRange := do
  match ← editor.find request.oldText request.constraint with
  | [] => .error (.refused (.textNotFound request.oldText request.constraint.describe?))
  | first :: _ => .ok first.range

/-- Makes a request in memory. -/
def stage (editor : Editor) (request : Request) : Except Failure Editor := do
  let range ← editor.locate request
  (editor.restage (editor.splice range request.newText)).mapError .refused

/-- A batch that was staged: to its end, or up to a request that could not be made. -/
inductive Staging where
  | done (editor : Editor) (transaction : Transaction)
  | broken (editor : Editor) (index : Nat) (cause : Failure)

/-- Makes requests in memory one after the other, counting from `index`. -/
def stageAll (editor : Editor) (transaction : Transaction) (index : Nat) :
    List Request → Staging
  | [] => .done editor transaction
  | request :: rest =>
    match editor.stage request with
    | .error cause => .broken editor index cause
    | .ok staged => stageAll staged transaction.record (index + 1) rest

/-- Ends a batch without success: the content from before comes back and the batch fails with
the given refusal. -/
def takeBack (editor : Editor) (transaction : Transaction) (index : Nat) (refusal : Refusal) :
    Except Failure BatchReport × Editor :=
  match editor.restage transaction.rollback with
  | .error cause => (.error (.refused (.rollbackFailed index cause.message)), editor)
  | .ok restored => (.error (.refused refusal), restored.inPhase .rejected)

/-- Makes all requests, or none. If the program stops among them, the editor is left with those
before. -/
def editAll (storage : Storage m) (editor : Editor) (requests : List Request) :
    m (Except Failure BatchReport × Editor) := do
  if requests.isEmpty then return (.error (.refused (.input .emptyBatch)), editor)
  match editor.planAll 1 requests with
  | .error (.stopped fault) => return (.error (.stopped fault), editor.inPhase .validating)
  | .error (.refused refusal) => return (.error (.refused refusal), editor.inPhase .rejected)
  | .ok warnings =>
    let transaction := Transaction.start editor.source editor.contentId
    match stageAll (editor.inPhase .applying) transaction 1 requests with
    | .broken staged _ (.stopped fault) => return (.error (.stopped fault), staged)
    | .broken staged index (.refused cause) =>
      return staged.takeBack transaction index (.transaction index cause.message)
    | .done staged finished =>
      match ← staged.persist storage staged.content finished.contentId with
      | .error refusal => return staged.takeBack finished requests.length refusal
      | .ok written =>
        let report : BatchReport :=
          { success := true
            editsApplied := finished.commit
            linesChanged :=
              Diff.changedLines (String.ofList finished.snapshot) written.content
            warnings
            error := none
            errorKind := none }
        return (.ok report, written.inPhase .applied)

end Editor

end ExactEdit
