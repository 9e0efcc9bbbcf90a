/-! # JSON values

A JSON value as it is read or written. Members of an object keep their order, and names may
repeat; numbers keep their written form.
-/

namespace ExactEdit

/-- A JSON value. A string with half of a surrogate pair denotes no text, and an object with such
a name denotes no record: both are `illFormed`. -/
inductive JsonValue where
  | null
  | bool (value : Bool)
  | number (written : String)
  | string (value : String)
  | array (items : List JsonValue)
  | object (members : List (String × JsonValue))
  | illFormed
  deriving Repr, Inhabited

namespace JsonValue

/-- The value of a natural number. -/
def nat (n : Nat) : JsonValue := number (toString n)

/-- An array of strings. -/
def strings (items : List String) : JsonValue := array (items.map string)

/-- A member that is left out if there is no value. -/
def optional {α : Type} (name : String) (encode : α → JsonValue) :
    Option α → List (String × JsonValue)
  | some a => [(name, encode a)]
  | none => []

/-- A member that is left out if its list is empty. -/
def unlessEmpty {α : Type} (name : String) (encode : α → JsonValue) (items : List α) :
    List (String × JsonValue) :=
  if items.isEmpty then [] else [(name, array (items.map encode))]

/-- A value or null. -/
def orNull {α : Type} (encode : α → JsonValue) : Option α → JsonValue
  | some a => encode a
  | none => null

/-- The fields of a record with the given names. A record is written as an object, where other
names are passed over and none of these may repeat, or as an array of its first fields. -/
def record? (names : List String) : JsonValue → Option (List (Option JsonValue))
  | object members =>
    names.mapM fun name =>
      match members.filter fun entry => entry.1 == name with
      | [] => some none
      | [entry] => some (some entry.2)
      | _ => none
  | array items =>
    if names.length < items.length then none
    else some (items.map some ++ List.replicate (names.length - items.length) none)
  | _ => none

mutual

/-- The value with the members of every object in the order of their names. -/
def sorted : JsonValue → JsonValue
  | array items => array (sortedItems items)
  | object members => object ((sortedMembers members).mergeSort fun a b => a.1 ≤ b.1)
  | value => value

/-- The values of an array, each sorted. -/
def sortedItems : List JsonValue → List JsonValue
  | [] => []
  | item :: rest => item.sorted :: sortedItems rest

/-- The values of members, each sorted. -/
def sortedMembers : List (String × JsonValue) → List (String × JsonValue)
  | [] => []
  | (name, value) :: rest => (name, value.sorted) :: sortedMembers rest

end

end JsonValue

end ExactEdit
