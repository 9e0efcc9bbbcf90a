/-! # Settings

What a user can set once for all edits.
-/

namespace ExactEdit

/-- Settings of an editor. -/
structure EditorSettings where
  /-- Lines around an occurrence, shown and used for a wider search text. -/
  contextLines : Nat
  /-- How far a comment may be from an occurrence to be used for a wider search text. -/
  commentRadius : Nat
  /-- Whether new text is parsed on its own. -/
  checksSyntax : Bool
  /-- Whether a file that changed since it was read is left alone. -/
  detectsExternalChanges : Bool
  deriving DecidableEq, Repr

/-- The settings of an editor unless something else is asked for. -/
def EditorSettings.default : EditorSettings := ⟨3, 2, true, true⟩

instance : Inhabited EditorSettings := ⟨.default⟩

/-- All settings. -/
structure Settings where
  editor : EditorSettings
  /-- Unchanged lines around a change in a preview. -/
  previewContext : Nat
  deriving DecidableEq, Repr

/-- The settings unless something else is asked for. -/
def Settings.default : Settings := ⟨.default, 3⟩

instance : Inhabited Settings := ⟨.default⟩

/-- A truth value in a settings file. -/
def Settings.writtenTruth (value : Bool) : String := if value then "true" else "false"

/-- The text of a settings file with these settings. -/
def Settings.written (settings : Settings) : String :=
  let editor := settings.editor
  "[engine]\n"
    ++ s!"context_lines = {editor.contextLines}\n"
    ++ s!"comment_radius = {editor.commentRadius}\n"
    ++ s!"syntax_checker = {writtenTruth editor.checksSyntax}\n"
    ++ s!"detect_external_changes = {writtenTruth editor.detectsExternalChanges}\n"
    ++ "\n[preview]\n"
    ++ s!"context_lines = {settings.previewContext}\n"

end ExactEdit
