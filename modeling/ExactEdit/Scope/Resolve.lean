import ExactEdit.Request.Constraint
import ExactEdit.Scope.Table

/-! # Resolution of filters

The filters of a constraint are resolved against a scope table. Every filter must name a scope.
The first filter, of the narrowest kind, gives the candidates; every other one must name a scope
around a candidate for it to stay.
-/

namespace ExactEdit

/-- Why the filters of a constraint select no scope. -/
inductive ScopeError where
  /-- No scope has this kind and name. -/
  | notFound (kind : ScopeKind) (name : String)
  /-- No scope of the inner kind and name is inside one of the outer kind and name. -/
  | mismatch (innerKind : ScopeKind) (inner : String) (outerKind : ScopeKind) (outer : String)
  deriving DecidableEq, Repr, Inhabited

/-- The message for a reader. -/
def ScopeError.message : ScopeError → String
  | notFound kind name => kind.named name ++ " not found"
  | mismatch innerKind inner outerKind outer =>
    innerKind.named inner ++ " is not inside " ++ outerKind.named outer

namespace ScopeTable

/-- The first filter that names no scope. -/
def unmatched? (table : ScopeTable) (filters : List (ScopeKind × String)) :
    Option (ScopeKind × String) :=
  filters.find? fun (kind, name) => (table.find kind name).isEmpty

/-- Keeps the candidates that every outer filter is around. `inner` is the filter that the
candidates come from. -/
def narrow (table : ScopeTable) (inner : ScopeKind × String) (candidates : List Nat) :
    List (ScopeKind × String) → Except ScopeError (List Nat)
  | [] => .ok candidates
  | (kind, name) :: rest =>
    let around := table.find kind name
    let kept := candidates.filter fun candidate =>
      around.any fun outer => table.encloses outer candidate
    if kept.isEmpty then .error (.mismatch inner.1 inner.2 kind name)
    else narrow table inner kept rest

/-- The scopes that the filters of a constraint select; none if there are no filters. -/
def resolve (table : ScopeTable) (constraint : Constraint) :
    Except ScopeError (Option (List Nat)) :=
  match constraint.filters with
  | [] => .ok none
  | inner :: outer =>
    match table.unmatched? (inner :: outer) with
    | some (kind, name) => .error (.notFound kind name)
    | none => (table.narrow inner (table.find inner.1 inner.2) outer).map some

end ScopeTable

end ExactEdit
