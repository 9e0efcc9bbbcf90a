import ExactEdit.Settings.Basic

/-! # Setting values

Settings come from files and from the environment as values of a few kinds. Layers are put on top
of each other: tables are joined member by member, and any other value covers what was there.
Where a number or a truth value is wanted, values of other kinds that clearly mean one will do.

## Main definitions

* `SettingValue` — a value
* `SettingValue.onTopOf`, `SettingValue.put` — layers
* `SettingValue.natural?`, `SettingValue.truth?` — what a value means where a kind is wanted
* `Settings.ofValue?` — the settings that a value means
-/

namespace ExactEdit

/-- A value in a settings file or in the environment. -/
inductive SettingValue where
  | nothing
  | truth (value : Bool)
  | integer (value : Int)
  | real (value : Float)
  | text (value : String)
  | list (items : List SettingValue)
  | table (members : List (String × SettingValue))
  deriving Repr, Inhabited

namespace SettingValue

/-- The members of a table; another value has none. -/
def members : SettingValue → List (String × SettingValue)
  | table members => members
  | _ => []

/-- The member of a table with a name. -/
def get? (value : SettingValue) (name : String) : Option SettingValue :=
  (value.members.find? fun entry => entry.1 == name).map (·.2)

/-- Puts a value under a name, at the place of the old one if there is one. -/
def assign (name : String) (value : SettingValue) :
    List (String × SettingValue) → List (String × SettingValue)
  | [] => [(name, value)]
  | entry :: rest =>
    if entry.1 = name then (name, value) :: rest else entry :: assign name value rest

mutual

/-- A value on top of another one. -/
def onTopOf (below : SettingValue) : SettingValue → SettingValue
  | table members => table (membersOnTopOf below.members members)
  | value => value

/-- Members on top of others. -/
def membersOnTopOf (below : List (String × SettingValue)) :
    List (String × SettingValue) → List (String × SettingValue)
  | [] => below
  | (name, value) :: rest =>
    membersOnTopOf (assign name (onTopOf (((table below).get? name).getD nothing) value) below) rest

end

/-- Puts a value on top of what is at the end of some names. What is not a table on the way there
becomes one. -/
def put (below value : SettingValue) : List String → SettingValue
  | [] => below.onTopOf value
  | name :: rest =>
    table (assign name (put ((below.get? name).getD nothing) value rest) below.members)

/-- Largest number that a setting can hold. -/
def maxNatural : Nat := Nat.pow 2 64 - 1

/-- The natural number that is written in digits, a plus sign in front allowed. -/
def naturalOfText? (text : String) : Option Nat :=
  let digits := match text.toList with
    | '+' :: rest => rest
    | chars => chars
  if digits.isEmpty || !digits.all Char.isDigit then none
  else
    let value := digits.foldl (fun value digit => 10 * value + (digit.toNat - '0'.toNat)) 0
    if value ≤ maxNatural then some value else none

/-- The natural number that a value means. Fractions are rounded, and what is out of range
becomes the nearest number; words for a truth value count as one and zero. -/
def natural? : SettingValue → Option Nat
  | integer value => if 0 ≤ value then some value.toNat else none
  | real value => some value.round.toUInt64.toNat
  | truth value => some (if value then 1 else 0)
  | text value =>
    let lower := value.toLower
    if ["true", "on", "yes"].contains lower then some 1
    else if ["false", "off", "no"].contains lower then some 0
    else naturalOfText? value
  | _ => none

/-- The truth value that a value means. A number that is not zero counts as true. -/
def truth? : SettingValue → Option Bool
  | truth value => some value
  | integer value => some (value != 0)
  | real value => some (value != 0)
  | text value =>
    let lower := value.toLower
    if ["1", "true", "on", "yes"].contains lower then some true
    else if ["0", "false", "off", "no"].contains lower then some false
    else none
  | _ => none

/-- Reads a field that may be left out. -/
def orDefault {α : Type} (default : α) (read : SettingValue → Option α) :
    Option SettingValue → Option α
  | some value => read value
  | none => some default

/-- The fields with the given names, of a table or, in order, of a list. Other names, and further
items, are passed over. -/
def fields? (names : List String) (value : SettingValue) :
    Option (List (Option SettingValue)) :=
  match value with
  | table _ => some (names.map value.get?)
  | list items => some (names.zipIdx.map fun (_, place) => items[place]?)
  | _ => none

end SettingValue

/-- The settings of an editor that a value means. -/
def EditorSettings.ofValue? (value : SettingValue) : Option EditorSettings := do
  let names := ["context_lines", "comment_radius", "syntax_checker", "detect_external_changes"]
  match ← value.fields? names with
  | [contextLines, commentRadius, checksSyntax, detectsExternalChanges] =>
    let base := EditorSettings.default
    return {
      contextLines := ← SettingValue.orDefault base.contextLines (·.natural?) contextLines
      commentRadius := ← SettingValue.orDefault base.commentRadius (·.natural?) commentRadius
      checksSyntax := ← SettingValue.orDefault base.checksSyntax (·.truth?) checksSyntax
      detectsExternalChanges :=
        ← SettingValue.orDefault base.detectsExternalChanges (·.truth?) detectsExternalChanges }
  | _ => none

/-- The number of lines around a change in a preview that a value means. -/
def Settings.previewOfValue? (value : SettingValue) : Option Nat := do
  match ← value.fields? ["context_lines"] with
  | [contextLines] =>
    SettingValue.orDefault Settings.default.previewContext (·.natural?) contextLines
  | _ => none

/-- The settings that a value means. What is left out has its default. -/
def Settings.ofValue? (value : SettingValue) : Option Settings := do
  match ← value.fields? ["engine", "preview"] with
  | [editor, preview] =>
    return {
      editor := ← SettingValue.orDefault .default EditorSettings.ofValue? editor
      previewContext :=
        ← SettingValue.orDefault Settings.default.previewContext Settings.previewOfValue?
          preview }
  | _ => none

end ExactEdit
