import ExactEdit.Proofs.Json.RoundTrip
import ExactEdit.Request.Json

/-! # Requests survive JSON

Writing and reading a request are not mirror images. Filters that are not set are left out, fields
that are left out have a default, which is not the same for both checks, and fields that nobody
knows are passed over. What makes both agree is that a record is read by its names: an object with
some of the fields of a record, and each of them once, gives back these fields.

## Main definitions

* `JsonValue.present` — the fields of a record that are not left out, as members of an object

## Main results

* `JsonValue.record?_present` — an object of fields is read as these fields
* `JsonValue.record?_known` — unknown members are passed over
* `requests_survive_json` — what is written of requests, and of a constraint that was read, is read
  as the same
-/

namespace ExactEdit

namespace JsonValue

variable {names : List String} {fields : List (Option JsonValue)}
variable {members : List (String × JsonValue)} {name : String}

/-! ## Records -/

/-- The fields of a record that are not left out, by their names. -/
def present (names : List String) (fields : List (Option JsonValue)) : List (String × JsonValue) :=
  (names.zip fields).flatMap fun (name, field) => optional name id field

/-- The field of a record that has a name among the members of an object. -/
def field? (members : List (String × JsonValue)) (name : String) : Option (Option JsonValue) :=
  match members.filter fun entry => entry.1 == name with
  | [] => some none
  | [entry] => some (some entry.2)
  | _ => none

theorem record?_cons :
    record? (name :: names) (object members) = do
      return (← field? members name) :: (← record? names (object members)) :=
  List.mapM_cons

/-- A member of the object of a record has the name and the value of a field. -/
theorem of_mem_present {member : String × JsonValue} (h : member ∈ present names fields) :
    member.1 ∈ names ∧ some member.2 ∈ fields := by
  obtain ⟨⟨name, field⟩, hzip, hmember⟩ := List.mem_flatMap.mp h
  cases field with
  | none => cases hmember
  | some value =>
    obtain rfl := List.mem_singleton.mp hmember
    exact List.of_mem_zip hzip

/-- An object is read as the fields that it holds, whatever other members stand in front. -/
theorem record?_append_present (hnodup : names.Nodup) (hlength : fields.length = names.length)
    (hother : ∀ member ∈ members, member.1 ∉ names) :
    record? names (object (members ++ present names fields)) = some fields := by
  -- On the names: the field of the first name goes to the members in front, where no later name
  -- looks for it.
  induction names generalizing members fields with
  | nil =>
    obtain rfl := List.length_eq_zero_iff.mp hlength
    rfl
  | cons name names ih =>
    obtain ⟨field, fields, rfl⟩ := List.exists_cons_of_length_eq_add_one hlength
    rw [List.nodup_cons] at hnodup
    have hpresent : present (name :: names) (field :: fields) =
        optional name id field ++ present names fields := rfl
    have hown : ∀ member ∈ optional name id field, member.1 = name := by
      cases field with
      | none => nofun
      | some value => simp [optional]
    have hfound : (members ++ present (name :: names) (field :: fields)).filter
        (fun entry => entry.1 == name) = optional name id field := by
      rw [hpresent, List.filter_append, List.filter_append, List.filter_eq_nil_iff.mpr,
        List.filter_eq_self.mpr, List.filter_eq_nil_iff.mpr, List.nil_append, List.append_nil]
      · intro member hmember
        have hne : member.1 ≠ name := by
          rintro rfl
          exact hnodup.1 (of_mem_present hmember).1
        simpa using hne
      · intro member hmember
        simpa using hown member hmember
      · intro member hmember
        have hne : member.1 ≠ name := by
          rintro rfl
          exact hother member hmember List.mem_cons_self
        simpa using hne
    have hrest : record? names (object (members ++ present (name :: names) (field :: fields))) =
        some fields := by
      rw [hpresent, ← List.append_assoc]
      refine ih hnodup.2 (by simpa using hlength) fun member hmember => ?_
      rcases List.mem_append.mp hmember with hmem | hmem
      · exact fun h => hother member hmem (List.mem_cons_of_mem _ h)
      · rw [hown member hmem]
        exact hnodup.1
    rw [record?_cons, hrest, field?, hfound]
    cases field with
    | none => rfl
    | some value => rfl

/-- An object of fields is read as these fields. -/
theorem record?_present (names : List String) (fields : List (Option JsonValue))
    (hnodup : names.Nodup) (hlength : fields.length = names.length) :
    record? names (object (present names fields)) = some fields := by
  rw [← List.nil_append (present names fields)]
  exact record?_append_present hnodup hlength nofun

/-- Members that are no fields of a record are passed over. -/
theorem record?_known (keep : String → Bool) (hkeep : ∀ name ∈ names, keep name = true) :
    record? names (object (members.filter fun member => keep member.1)) =
      record? names (object members) := by
  induction names with
  | nil => rfl
  | cons name names ih =>
    rw [List.forall_mem_cons] at hkeep
    have hfilter : (members.filter fun member => keep member.1).filter
        (fun entry => entry.1 == name) = members.filter fun entry => entry.1 == name := by
      rw [List.filter_filter]
      refine List.filter_congr fun entry _ => ?_
      by_cases h : entry.1 = name
      · simp [h, hkeep.1]
      · simp [h]
    rw [record?_cons, record?_cons, ih hkeep.2, field?, hfilter, field?]

end JsonValue

/-! ## Constraints -/

namespace Constraint

variable {constraint : Constraint}

/-- The fields of a constraint. -/
def fields (constraint : Constraint) : List (Option JsonValue) :=
  [constraint.withinFunction.map .string, constraint.withinClass.map .string,
    constraint.withinMethod.map .string, constraint.withinInterface.map .string,
    constraint.withinNamespace.map .string, some (.bool constraint.requireUnique),
    some (.bool constraint.allowIndentationChanges)]

/-- A constraint is written as the fields that it has. -/
theorem toJson_eq (constraint : Constraint) :
    constraint.toJson = .object (JsonValue.present fieldNames constraint.fields) := by
  have hfilter : ∀ (name : String) (filter : Option String),
      JsonValue.optional name .string filter =
        JsonValue.optional name id (filter.map .string) := by
    intro name filter
    cases filter with
    | none => rfl
    | some scope => rfl
  rw [toJson]
  simp only [hfilter, List.append_assoc]
  rfl

/-- A constraint is the constraint of its record. -/
theorem ofJson?_toJson (constraint : Constraint) : ofJson? constraint.toJson = some constraint := by
  have hfilter : ∀ filter : Option String,
      JsonValue.textOrNone? (filter.map .string) = some filter := by
    intro filter
    cases filter with
    | none => rfl
    | some scope => rfl
  rw [toJson_eq, ofJson?, JsonValue.record?_present fieldNames constraint.fields (by decide) rfl]
  simp only [fields, Option.bind_eq_bind, Option.bind_some, hfilter]
  rfl

/-- Unknown members of an object have no part in the constraint of it. -/
theorem ofJson?_known (members : List (String × JsonValue)) :
    ofJson? (.object (members.filter fun member => member.1 ∈ fieldNames)) =
      ofJson? (.object members) := by
  rw [ofJson?, JsonValue.record?_known (fun name => name ∈ fieldNames) (by simp), ofJson?]

/-- What is written of a constraint can be read. -/
theorem readsBack_toJson (constraint : Constraint) : constraint.toJson.ReadsBack := by
  have hfilter : ∀ (filter : Option String) (value : JsonValue),
      some value = filter.map .string → value.ReadsBack := by
    intro filter value h
    obtain ⟨scope, -, rfl⟩ := Option.map_eq_some_iff.mp h.symm
    exact .string scope
  have hflag : ∀ (flag : Bool) (value : JsonValue), some value = some (.bool flag) →
      value.ReadsBack := by
    intro flag value h
    obtain rfl := Option.some.inj h
    exact .bool flag
  rw [toJson_eq]
  refine .object fun member hmember => ?_
  have hmem := (JsonValue.of_mem_present hmember).2
  simp only [fields, List.mem_cons, List.not_mem_nil, or_false] at hmem
  rcases hmem with h | h | h | h | h | h | h
  · exact hfilter _ _ h
  · exact hfilter _ _ h
  · exact hfilter _ _ h
  · exact hfilter _ _ h
  · exact hfilter _ _ h
  · exact hflag _ _ h
  · exact hflag _ _ h

/-- What is written of a constraint is read as that constraint. -/
theorem read?_compact_toJson (constraint : Constraint) :
    read? constraint.toJson.compact = some constraint := by
  rw [read?, constraint.readsBack_toJson.read?_compact, Option.bind_some, ofJson?_toJson]

end Constraint

/-! ## Requests -/

namespace Request

/-- A request is the request of its record. -/
theorem ofJson?_toJson (request : Request) : ofJson? request.toJson = some request := by
  have hrecord : request.toJson.record? fieldNames = some [some (.string request.oldText),
      some (.string request.newText), some request.constraint.toJson] :=
    JsonValue.record?_present fieldNames [some _, some _, some _] (by decide) rfl
  rw [ofJson?, hrecord]
  simp only [Option.bind_eq_bind, Option.bind_some, constraintOrDefault?,
    Constraint.ofJson?_toJson]
  rfl

theorem readsBack_toJson (request : Request) : request.toJson.ReadsBack := by
  refine .object ?_
  simp only [List.forall_mem_cons]
  exact ⟨.string _, .string _, request.constraint.readsBack_toJson, nofun⟩

theorem listOfJson?_toJson (requests : List Request) :
    listOfJson? (.array (requests.map toJson)) = some requests := by
  rw [listOfJson?]
  induction requests with
  | nil => rfl
  | cons request rest ih =>
    rw [List.map_cons, List.mapM_cons, ofJson?_toJson, ih]
    rfl

end Request

/-- Requests are read as they were written. A constraint that was read from some text, with whatever
is unknown, null or left out there, is written in a way that gives the same constraint again; and
what is unknown in an object has no part in its constraint. -/
theorem requests_survive_json :
    (∀ requests, Request.readAll? (Request.writeAll requests) = some requests) ∧
    (∀ text, ((Constraint.read? text).bind fun constraint =>
      Constraint.read? constraint.toJson.compact) = Constraint.read? text) ∧
    ∀ members, Constraint.ofJson?
        (.object (members.filter fun member => member.1 ∈ Constraint.fieldNames)) =
      Constraint.ofJson? (.object members) := by
  refine ⟨fun requests => ?_, fun text => ?_, Constraint.ofJson?_known⟩
  · have hread : (JsonValue.array (requests.map Request.toJson)).ReadsBack := by
      refine .array fun item hitem => ?_
      obtain ⟨request, -, rfl⟩ := List.mem_map.mp hitem
      exact request.readsBack_toJson
    rw [Request.readAll?, Request.writeAll, hread.read?_compact, Option.bind_some,
      Request.listOfJson?_toJson]
  · cases hread : Constraint.read? text with
    | none => rfl
    | some constraint => exact constraint.read?_compact_toJson

end ExactEdit
