import ExactEdit.Json.Reader
import ExactEdit.Settings.Toml
import ExactEdit.Settings.Yaml
import ExactEdit.Text.Utf8

/-! # Loading settings

Settings come from the first settings file that is there, and on top of it from environment
variables. A file that cannot be read, and values that mean no settings, are told apart.

## Main definitions

* `SettingsFormat`, `settingsFiles` — the files that are looked for, in order
* `SettingsFormat.read?` — the members of a file
* `variableLayer` — the settings of an environment
* `Settings.ofLayers` — the settings of a file and an environment
-/

namespace ExactEdit

/-- The formats of settings files. -/
inductive SettingsFormat where
  | toml
  | yaml
  | json
  deriving DecidableEq, Repr, Inhabited

/-- The names of settings files with their formats. The first one that is there counts. -/
def settingsFiles : List (String × SettingsFormat) :=
  [("scopedit.toml", .toml), ("scopedit.yaml", .yaml), ("scopedit.json", .json),
    (".scopedit.toml", .toml)]

/-- Why there are no settings. -/
inductive SettingsError where
  /-- A settings file is not in its format. -/
  | unreadable
  /-- The values mean no settings. -/
  | meaningless
  deriving DecidableEq, Repr, Inhabited

/-- The message for a reader. -/
def SettingsError.message : SettingsError → String
  | unreadable => "Failed to load configuration"
  | meaningless => "Failed to parse configuration"

namespace SettingValue

/-- The value of a JSON number. A number beyond all doubles has none. -/
def ofJsonNumber? (written : String) : Option SettingValue :=
  match Scalar.integer? written.toList with
  | some value => some (.integer value)
  | none => do
    let value ← Scalar.real? written.toList
    guard value.isFinite
    return .real value

mutual

/-- A JSON value as a setting. Of members with one name the last one counts. -/
def ofJson? : JsonValue → Option SettingValue
  | .null => some .nothing
  | .bool value => some (.truth value)
  | .number written => ofJsonNumber? written
  | .string value => some (.text value)
  | .array items => (itemsOfJson? items).map .list
  | .object members => (membersOfJson? [] members).map .table
  | .illFormed => none

/-- JSON values as settings. -/
def itemsOfJson? : List JsonValue → Option (List SettingValue)
  | [] => some []
  | item :: rest =>
    match ofJson? item, itemsOfJson? rest with
    | some value, some values => some (value :: values)
    | _, _ => none

/-- JSON members as settings. -/
def membersOfJson? (seen : List (String × SettingValue)) :
    List (String × JsonValue) → Option (List (String × SettingValue))
  | [] => some seen
  | (name, member) :: rest =>
    match ofJson? member with
    | some value => membersOfJson? (assign name value seen) rest
    | none => none

end

end SettingValue

/-- The members of a JSON text that is an object. -/
def membersOfJsonText? (text : String) : Option (List (String × SettingValue)) := do
  match ← SettingValue.ofJson? (← JsonValue.read? text) with
  | .table members => return members
  | _ => none

/-- The members of a settings file. -/
def SettingsFormat.read? (format : SettingsFormat) (text : String) :
    Option (List (String × SettingValue)) :=
  match format with
  | toml => Toml.read? text
  | yaml => Yaml.read? text
  | json => membersOfJsonText? text

/-- The text of a settings file, without a byte order mark. -/
def textOfSettings (bytes : ByteArray) : String :=
  match bytes.toList with
  | 0xEF :: 0xBB :: 0xBF :: rest => Utf8.decodeLossy ⟨rest.toArray⟩
  | _ => Utf8.decodeLossy bytes

/-- The names on the way that the name of an outermost member stands for: it is cut at its dots,
if plain names remain. -/
def wayOfName (name : String) : List String :=
  let parts := name.splitOn "."
  if parts.all fun part => !part.isEmpty && part.toList.all Toml.isKeyChar then parts else [name]

/-- A layer of members on top of a value. -/
def addLayer (below : SettingValue) (members : List (String × SettingValue)) : SettingValue :=
  members.foldl (fun value entry => value.put entry.2 (wayOfName entry.1)) below

/-- What the name of an environment variable starts with, in lower case, if it sets something. -/
def variableMark : String := "scopedit__"

/-- The settings of an environment. What follows the mark names a setting, with two underscores in
place of a dot. Letters count in any case. -/
def variableLayer (environment : List (String × String)) : List (String × SettingValue) :=
  environment.filterMap fun (name, value) =>
    let lower := name.toLower
    if lower.startsWith variableMark then
      let rest := String.ofList (lower.toList.drop variableMark.length)
      some (rest.replace "__" ".", Scalar.ofWord value)
    else none

/-- The settings of a file, if there is one, and an environment. -/
def Settings.ofLayers (file : Option (List (String × SettingValue)))
    (environment : List (String × String)) : Except SettingsError Settings :=
  let value := addLayer (addLayer (.table []) (file.getD [])) (variableLayer environment)
  match Settings.ofValue? value with
  | some settings => .ok settings
  | none => .error .meaningless

/-- The settings of a file with its bytes, if there is one, and an environment. A file without
bytes could not be read. -/
def Settings.load (file : Option (SettingsFormat × Option ByteArray))
    (environment : List (String × String)) : Except SettingsError Settings :=
  match file with
  | none => Settings.ofLayers none environment
  | some (format, bytes) =>
    match bytes.bind fun bytes => format.read? (textOfSettings bytes) with
    | some members => Settings.ofLayers (some members) environment
    | none => .error .unreadable

end ExactEdit
