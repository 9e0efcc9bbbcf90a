import ExactEdit.Scope.Kind

/-! # Constraints

A constraint says where an edit may land and what is checked less strictly. It may name one
scope of every kind; the names that are given are its filters.
-/

namespace ExactEdit

/-- Where an edit may land. `requireUnique` refuses an edit with more than one possible place;
`allowIndentationChanges` accepts lines whose indentation changes. -/
structure Constraint where
  withinFunction : Option String
  withinClass : Option String
  withinMethod : Option String
  withinInterface : Option String
  withinNamespace : Option String
  requireUnique : Bool
  allowIndentationChanges : Bool
  deriving DecidableEq, Repr

namespace Constraint

/-- No filter, and both checks as strict as they are. -/
def default : Constraint := ⟨none, none, none, none, none, true, false⟩

instance : Inhabited Constraint := ⟨default⟩

/-- The constraint that names one scope. -/
def ofScope (kind : ScopeKind) (name : String) : Constraint :=
  match kind with
  | .function => { default with withinFunction := some name }
  | .method => { default with withinMethod := some name }
  | .classBody => { default with withinClass := some name }
  | .interface => { default with withinInterface := some name }
  | .nameSpace => { default with withinNamespace := some name }

/-- The name that a constraint gives for a kind of scope. -/
def nameFor (constraint : Constraint) : ScopeKind → Option String
  | .function => constraint.withinFunction
  | .method => constraint.withinMethod
  | .classBody => constraint.withinClass
  | .interface => constraint.withinInterface
  | .nameSpace => constraint.withinNamespace

/-- The filters, the narrowest kind first. -/
def filters (constraint : Constraint) : List (ScopeKind × String) :=
  ScopeKind.bySpecificity.filterMap fun kind => (constraint.nameFor kind).map (kind, ·)

/-- Whether there is a filter. -/
def isScoped (constraint : Constraint) : Bool := !constraint.filters.isEmpty

/-- The filters in words, from the inside out. -/
def describe? (constraint : Constraint) : Option String :=
  match constraint.filters with
  | [] => none
  | filters => some (String.intercalate " in " (filters.map fun (kind, name) => kind.named name))

end Constraint

end ExactEdit
