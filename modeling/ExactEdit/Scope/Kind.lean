/-! # Kinds of scopes

The kinds of named regions that an edit can be limited to.
-/

namespace ExactEdit

/-- A kind of named region. -/
inductive ScopeKind where
  | function
  | method
  | classBody
  | interface
  | nameSpace
  deriving DecidableEq, Repr, Inhabited

namespace ScopeKind

/-- The word for a kind. -/
def label : ScopeKind → String
  | function => "function"
  | method => "method"
  | classBody => "class"
  | interface => "interface"
  | nameSpace => "namespace"

/-- All kinds, the narrowest first. -/
def bySpecificity : List ScopeKind := [method, function, interface, classBody, nameSpace]

/-- The place of a kind among all, the narrowest being zero. -/
def specificity : ScopeKind → Nat
  | method => 0
  | function => 1
  | interface => 2
  | classBody => 3
  | nameSpace => 4

/-- The place of a kind is that in the list of all. -/
theorem getElem?_bySpecificity (kind : ScopeKind) :
    bySpecificity[kind.specificity]? = some kind := by
  cases kind <;> rfl

/-- A name together with its kind, as messages show it. -/
def named (kind : ScopeKind) (name : String) : String :=
  kind.label ++ " `" ++ name ++ "`"

end ScopeKind

end ExactEdit
