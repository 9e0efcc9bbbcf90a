import ExactEdit.Json.Reader
import ExactEdit.Syntax.Tree

/-! # Parse listings

A parse listing brings parse trees from a parser to this program: a JSON array with an object for
every text, whose `nodes` are the rows of its tree in pre-order. A row is an array of the depth,
the kind, the flags, the first byte, the byte behind the last, and the name of the field if there
is one. A flag is worth one if the node is named, two if it is missing, four if it is an error and
eight if there is a fault in it.

## Main definitions

* `ParseListing.read?` — the trees of a listing
* `Parser.ofListing` — the parser that looks texts up
-/

namespace ExactEdit

/-- The field with a name, if the scope rules know it. -/
def FieldName.ofText? (text : String) : Option FieldName :=
  match text with
  | "name" => some name
  | "type" => some type
  | "body" => some body
  | "declarator" => some declarator
  | "value" => some value
  | "property" => some property
  | _ => none

/-- A node with these flags. -/
def Node.ofFlags (kind : String) (flags start stop : Nat) (field : Option FieldName) : Node :=
  { kind
    isNamed := flags.testBit 0
    isMissing := flags.testBit 1
    isError := flags.testBit 2
    hasError := flags.testBit 3
    range := ⟨start, stop⟩
    field }

/-- Texts with their parse trees. -/
abbrev ParseListing : Type := List (String × ParseTree)

namespace ParseListing

/-- A natural number. -/
def nat? : JsonValue → Option Nat
  | .number written => written.toNat?
  | _ => none

/-- The field at the end of a row. -/
def field? : List JsonValue → Option FieldName
  | [.string name] => FieldName.ofText? name
  | _ => none

/-- A row: the depth and the node. -/
def row? : JsonValue → Option (Nat × Node)
  | .array (depth :: .string kind :: flags :: start :: stop :: rest) => do
    return (← nat? depth,
      Node.ofFlags kind (← nat? flags) (← nat? start) (← nat? stop) (field? rest))
  | _ => none

/-- A text with its tree. -/
def entry? (value : JsonValue) : Option (String × ParseTree) := do
  match ← value.record? ["text", "nodes"] with
  | [some (.string text), some (.array rows)] =>
    match ParseTree.ofRows (← rows.mapM row?) with
    | [tree] => return (text, tree)
    | _ => none
  | _ => none

/-- The trees of a listing. -/
def read? (text : String) : Option ParseListing := do
  match ← JsonValue.read? text with
  | .array entries => entries.mapM entry?
  | _ => none

end ParseListing

/-- The parser that looks texts up. In a text that is not listed it finds nothing. -/
def Parser.ofListing (listing : ParseListing) : Parser := fun _ text =>
  match listing.find? fun entry => entry.1 == text with
  | some (_, tree) => .ok tree
  | none => .ok (ParseTree.bare "text" text.utf8ByteSize)

end ExactEdit
