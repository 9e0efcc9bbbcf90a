import ExactEdit.Json.Reader
import ExactEdit.Json.Writer
import ExactEdit.Request.Basic

/-! # Requests as JSON

Constraints and requests are records. Filters may be null or left out; what is left out of a
constraint has its default, while a request needs both texts.

## Main definitions

* `Constraint.toJson`, `Constraint.ofJson?`
* `Request.toJson`, `Request.ofJson?`
* `Request.readAll?` — the requests of a JSON text
-/

namespace ExactEdit

namespace JsonValue

/-- A text that may be null or left out. -/
def textOrNone? : Option JsonValue → Option (Option String)
  | none => some none
  | some null => some none
  | some (string value) => some (some value)
  | some _ => none

/-- A text that may not be left out. -/
def text? : Option JsonValue → Option String
  | some (string value) => some value
  | _ => none

/-- A truth value that may be left out. -/
def flag? (default : Bool) : Option JsonValue → Option Bool
  | none => some default
  | some (bool value) => some value
  | some _ => none

end JsonValue

namespace Constraint

/-- The names of the fields of a constraint. -/
def fieldNames : List String :=
  ["withinFunction", "withinClass", "withinMethod", "withinInterface", "withinNamespace",
    "requireUnique", "allowIndentationChanges"]

/-- A constraint as a record. Filters that are not set are left out. -/
def toJson (constraint : Constraint) : JsonValue :=
  .object
    (JsonValue.optional "withinFunction" .string constraint.withinFunction
      ++ JsonValue.optional "withinClass" .string constraint.withinClass
      ++ JsonValue.optional "withinMethod" .string constraint.withinMethod
      ++ JsonValue.optional "withinInterface" .string constraint.withinInterface
      ++ JsonValue.optional "withinNamespace" .string constraint.withinNamespace
      ++ [("requireUnique", .bool constraint.requireUnique),
        ("allowIndentationChanges", .bool constraint.allowIndentationChanges)])

/-- The constraint of a record. -/
def ofJson? (value : JsonValue) : Option Constraint := do
  match ← value.record? fieldNames with
  | [function, classBody, method, interface, nameSpace, requireUnique, allowIndentation] =>
    return {
      withinFunction := ← JsonValue.textOrNone? function
      withinClass := ← JsonValue.textOrNone? classBody
      withinMethod := ← JsonValue.textOrNone? method
      withinInterface := ← JsonValue.textOrNone? interface
      withinNamespace := ← JsonValue.textOrNone? nameSpace
      requireUnique := ← JsonValue.flag? true requireUnique
      allowIndentationChanges := ← JsonValue.flag? false allowIndentation }
  | _ => none

/-- The constraint of a JSON text. -/
def read? (text : String) : Option Constraint := (JsonValue.read? text).bind ofJson?

end Constraint

namespace Request

/-- The names of the fields of a request. -/
def fieldNames : List String := ["oldString", "newString", "context"]

/-- A request as a record. -/
def toJson (request : Request) : JsonValue :=
  .object [("oldString", .string request.oldText), ("newString", .string request.newText),
    ("context", request.constraint.toJson)]

/-- A constraint that may be left out. -/
def constraintOrDefault? : Option JsonValue → Option Constraint
  | none => some .default
  | some value => Constraint.ofJson? value

/-- The request of a record. -/
def ofJson? (value : JsonValue) : Option Request := do
  match ← value.record? fieldNames with
  | [old, new, constraint] =>
    return ⟨← JsonValue.text? old, ← JsonValue.text? new, ← constraintOrDefault? constraint⟩
  | _ => none

/-- The requests of an array. -/
def listOfJson? : JsonValue → Option (List Request)
  | .array items => items.mapM ofJson?
  | _ => none

/-- The requests of a JSON text. -/
def readAll? (text : String) : Option (List Request) := (JsonValue.read? text).bind listOfJson?

/-- Requests as a JSON text. -/
def writeAll (requests : List Request) : String := (JsonValue.array (requests.map toJson)).compact

end Request

end ExactEdit
