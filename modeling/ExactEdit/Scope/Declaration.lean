import ExactEdit.Scope.Kind
import ExactEdit.Scope.SimpleName
import ExactEdit.Syntax.Language
import ExactEdit.Syntax.ParseTree

/-! # Declarations of scopes

For every language, which parse nodes declare a named scope, of what kind and under what name.
Whether a function is a method depends on the nearest enclosing definition, so a rule sees the
nodes above the declaring one, nearest first.

## Main definitions

* `Declaration` — the kind and name of a declared scope
* `declaration?` — the rule of a language
-/

namespace ExactEdit

/-- The kind and the name of a declared scope. -/
structure Declaration where
  kind : ScopeKind
  name : String
  deriving DecidableEq, Repr, Inhabited

namespace Declaration

/-- Kind of the nearest node above that has one of the given kinds. -/
def nearestKind? (kinds : List String) (above : List Node) : Option String :=
  (above.find? fun node => kinds.contains node.kind).map (·.kind)

/-- Text of a child held under a field. -/
def fieldText? (chars : List Char) (tree : ParseTree) (field : FieldName) : Option (List Char) := do
  (← tree.childByField? field).label.text? chars

/-- A scope whose name is made from the text of a field. -/
def namedBy? (nameOf : List Char → List Char) (chars : List Char) (tree : ParseTree)
    (kind : ScopeKind) (field : FieldName) : Option Declaration :=
  (fieldText? chars tree field).map fun text => ⟨kind, String.ofList (nameOf text)⟩

/-- A scope whose name is the text of a field. -/
def named? : List Char → ParseTree → ScopeKind → FieldName → Option Declaration := namedBy? id

/-- A scope whose name is the simple name in the text of a field. -/
def simplyNamed? : List Char → ParseTree → ScopeKind → FieldName → Option Declaration :=
  namedBy? simpleName

/-- Rust: functions are methods right inside an implementation or a trait; an implementation is
a class under the simple name of its type; a module is a namespace if it has a body. -/
def rust? (chars : List Char) (above : List Node) (tree : ParseTree) : Option Declaration :=
  match tree.label.kind with
  | "function_item" =>
    let owner := nearestKind? ["impl_item", "trait_item", "function_item"] above
    if owner = some "impl_item" ∨ owner = some "trait_item" then named? chars tree .method .name
    else named? chars tree .function .name
  | "impl_item" => simplyNamed? chars tree .classBody .type
  | "trait_item" => named? chars tree .interface .name
  | "mod_item" => (tree.childByField? .body).bind fun _ => named? chars tree .nameSpace .name
  | _ => none

/-- Python: functions are methods right inside a class. -/
def python? (chars : List Char) (above : List Node) (tree : ParseTree) : Option Declaration :=
  match tree.label.kind with
  | "function_definition" =>
    let owner := nearestKind? ["function_definition", "class_definition"] above
    if owner = some "class_definition" then named? chars tree .method .name
    else named? chars tree .function .name
  | "class_definition" => named? chars tree .classBody .name
  | _ => none

/-- Whether the value of a binding is a function. -/
def hasCallableValue (tree : ParseTree) : Bool :=
  match tree.childByField? .value with
  | some value =>
    ["arrow_function", "function_expression", "function", "generator_function"].contains
      value.label.kind
  | none => false

/-- A text without the quotes at its ends. -/
def withoutQuotes (chars : List Char) : List Char :=
  let isQuote := fun c => c = '"' ∨ c = '\''
  ((chars.dropWhile isQuote).reverse.dropWhile isQuote).reverse

/-- JavaScript and TypeScript: besides the declarations proper, a variable bound to a function
is a function, and a class field bound to one is a method. -/
def ecmaScript? (chars : List Char) (tree : ParseTree) : Option Declaration :=
  match tree.label.kind with
  | "function_declaration" | "generator_function_declaration" => named? chars tree .function .name
  | "method_definition" => named? chars tree .method .name
  | "class_declaration" | "abstract_class_declaration" | "class" =>
    named? chars tree .classBody .name
  | "interface_declaration" => named? chars tree .interface .name
  | "internal_module" | "module" => namedBy? withoutQuotes chars tree .nameSpace .name
  | "variable_declarator" => do
    let name ← tree.childByField? .name
    if hasCallableValue tree && name.label.kind == "identifier" then
      named? chars tree .function .name
    else none
  | "public_field_definition" | "field_definition" =>
    if hasCallableValue tree then
      named? chars tree .method .name <|> named? chars tree .method .property
    else none
  | _ => none

/-- Go: struct types are classes. -/
def go? (chars : List Char) (tree : ParseTree) : Option Declaration :=
  match tree.label.kind with
  | "function_declaration" => named? chars tree .function .name
  | "method_declaration" => named? chars tree .method .name
  | "type_spec" => do
    match (← tree.childByField? .type).label.kind with
    | "struct_type" => named? chars tree .classBody .name
    | "interface_type" => named? chars tree .interface .name
    | _ => none
  | _ => none

/-- The declarators that stand around another one. -/
def isWrappingDeclarator (kind : String) : Bool :=
  ["function_declarator", "pointer_declarator", "reference_declarator",
    "parenthesized_declarator"].contains kind

/-- The declarator inside another: the one under that field, else the last named child. -/
def innerDeclarator? (tree : ParseTree) : Option ParseTree :=
  match tree.childByField? .declarator with
  | some inner => some inner
  | none => tree.lastNamedChild?

theorem innerDeclarator?_size {tree inner : ParseTree} (h : innerDeclarator? tree = some inner) :
    inner.size < tree.size := by
  unfold innerDeclarator? at h
  split at h
  · next found =>
    cases h
    exact ParseTree.size_lt_of_mem_children (ParseTree.childByField?_mem found)
  · exact ParseTree.size_lt_of_mem_children (ParseTree.lastNamedChild?_mem h)

/-- The innermost declarator, which bears the name. -/
def bearingDeclarator? (tree : ParseTree) : Option ParseTree :=
  if isWrappingDeclarator tree.label.kind then
    match _found : innerDeclarator? tree with
    | some inner => bearingDeclarator? inner
    | none => none
  else some tree
termination_by tree.size
decreasing_by exact innerDeclarator?_size _found

/-- C++: functions are methods right inside a class body or under a qualified name; classes and
structs need a body. -/
def cpp? (chars : List Char) (above : List Node) (tree : ParseTree) : Option Declaration :=
  match tree.label.kind with
  | "function_definition" => do
    let bearer ← bearingDeclarator? (← tree.childByField? .declarator)
    let name := String.ofList (simpleName (← bearer.label.text? chars))
    let owner := nearestKind? ["field_declaration_list", "function_definition"] above
    if bearer.label.kind = "qualified_identifier" ∨ owner = some "field_declaration_list" then
      return ⟨.method, name⟩
    else
      return ⟨.function, name⟩
  | "class_specifier" | "struct_specifier" =>
    (tree.childByField? .body).bind fun _ => simplyNamed? chars tree .classBody .name
  | "namespace_definition" => named? chars tree .nameSpace .name
  | _ => none

end Declaration

/-- The scope that the root of a tree declares in a language, given the text and the nodes above
the root, nearest first. -/
def declaration? (language : Language) (chars : List Char) (above : List Node) (tree : ParseTree) :
    Option Declaration :=
  match language with
  | .rust => Declaration.rust? chars above tree
  | .python => Declaration.python? chars above tree
  | .javaScript | .typeScript | .tsx => Declaration.ecmaScript? chars tree
  | .go => Declaration.go? chars tree
  | .cpp => Declaration.cpp? chars above tree

end ExactEdit
