import ExactEdit.Occurrence
import ExactEdit.Proofs.Result
import ExactEdit.Scope.Resolve

/-! # Looking scopes up

A scope table is asked for scopes by kind and name, by their lines, and by the filters of a
constraint. What comes back are numbers; the lemmas here say which scopes have them.

## Main results

* `ScopeTable.mem_find_iff` — the scopes of a kind and name
* `ScopeTable.exists_scope_of_innermost?` — the innermost scope around some lines contains them
* `ScopeTable.resolve_ofScope` — naming a scope selects it and its namesakes
* `ScopeTable.allowsLines_some_iff` — the lines of some scopes
-/

namespace ExactEdit

open Result

variable {table : ScopeTable} {id first last : Nat} {kind : ScopeKind} {name : String}
variable {scope : Scope} {range : ByteRange} {condition : Scope → Bool} {ids : List Nat}
variable {constraint : Constraint}

/-- Naming one scope is one filter. -/
theorem Constraint.filters_ofScope (kind : ScopeKind) (name : String) :
    (ofScope kind name).filters = [(kind, name)] := by
  cases kind <;> rfl

namespace ScopeTable

theorem mem_idsWhere_iff :
    id ∈ table.idsWhere condition ↔ ∃ scope, table.get? id = some scope ∧ condition scope := by
  rw [idsWhere, get?]
  constructor
  · intro h
    obtain ⟨⟨scope, _⟩, hentry, rfl⟩ := List.mem_map.mp h
    obtain ⟨hmem, hcondition⟩ := List.mem_filter.mp hentry
    exact ⟨scope, List.mem_zipIdx_iff_getElem?.mp hmem, hcondition⟩
  · rintro ⟨scope, hscope, hcondition⟩
    exact List.mem_map.mpr ⟨(scope, id), List.mem_filter.mpr
      ⟨List.mem_zipIdx_iff_getElem?.mpr hscope, hcondition⟩, rfl⟩

/-- Numbers are listed in order. -/
theorem pairwise_idsWhere (table : ScopeTable) (condition : Scope → Bool) :
    (table.idsWhere condition).Pairwise (· < ·) := by
  have hsublist : (table.idsWhere condition).Sublist (table.scopes.zipIdx.map (·.2)) :=
    List.filter_sublist.map _
  rw [List.zipIdx_map_snd] at hsublist
  exact List.Pairwise.sublist hsublist List.pairwise_lt_range'

theorem containsBytes_eq_true_iff : table.containsBytes id range = true ↔
    ∃ scope, table.get? id = some scope ∧ scope.containsBytes range = true := by
  rw [containsBytes]
  cases table.get? id with
  | none => simp
  | some scope => simp

theorem containsLines_eq_true_iff : table.containsLines id first last = true ↔
    ∃ scope, table.get? id = some scope ∧ scope.containsLines first last = true := by
  rw [containsLines]
  cases table.get? id with
  | none => simp
  | some scope => simp

/-- Looking up by kind and name finds the scopes with both. -/
theorem mem_find_iff : id ∈ table.find kind name ↔
    ∃ scope, table.get? id = some scope ∧ scope.kind = kind ∧ scope.name = name := by
  rw [find, mem_idsWhere_iff]
  simp only [Bool.and_eq_true, beq_iff_eq]

theorem mem_find_of_get? (h : table.get? id = some scope) :
    id ∈ table.find scope.kind scope.name :=
  mem_find_iff.mpr ⟨scope, h, rfl, rfl⟩

/-- The innermost scope around some lines contains them. -/
theorem exists_scope_of_innermost? (h : table.innermost? first last range = some id) :
    ∃ scope, table.get? id = some scope ∧ scope.containsLines first last = true := by
  -- Bytes only choose among the scopes around the lines.
  refine mem_idsWhere_iff.mp ?_
  rw [innermost?] at h
  split at h
  · next found hfound =>
    obtain rfl := Option.some.inj h
    exact List.mem_reverse.mp (List.mem_of_find?_eq_some hfound)
  · exact List.mem_of_getLast? h

theorem allowsLines_some_iff : table.allowsLines (some ids) first last = true ↔
    ∃ id ∈ ids, ∃ scope, table.get? id = some scope ∧ scope.containsLines first last = true := by
  rw [allowsLines, List.any_eq_true]
  exact exists_congr fun id => and_congr_right fun _ => containsLines_eq_true_iff

/-- What is on lines that are allowed is allowed. -/
theorem allowsLines_of_le {within : Option (List Nat)} {above below : Nat}
    (h : table.allowsLines within above below = true) (hfirst : above ≤ first)
    (hlast : last ≤ below) : table.allowsLines within first last = true := by
  cases within with
  | none => rfl
  | some ids =>
    obtain ⟨id, hid, scope, hscope, hlines⟩ := allowsLines_some_iff.mp h
    refine allowsLines_some_iff.mpr ⟨id, hid, scope, hscope, ?_⟩
    rw [Scope.containsLines, Bool.and_eq_true, decide_eq_true_iff, decide_eq_true_iff] at hlines ⊢
    exact ⟨Nat.le_trans hlines.1 hfirst, Nat.le_trans hlast hlines.2⟩

/-! ## Filters -/

theorem resolve_of_filters_eq_nil (h : constraint.filters = []) :
    table.resolve constraint = .ok none := by
  rw [resolve, h]

theorem resolve_ne_none_of_filters (h : constraint.filters ≠ []) :
    table.resolve constraint ≠ .ok none := by
  rw [resolve]
  split
  · next hnil => exact absurd hnil h
  · next inner outer _ =>
    split
    · intro hnone
      cases hnone
    · intro hnone
      obtain ⟨_, -, hsome⟩ := map_eq_ok_iff.mp hnone
      cases hsome

/-- Only filters select scopes. -/
theorem exists_filter_of_resolve_eq_some (h : table.resolve constraint = .ok (some ids)) :
    ∃ filter, constraint.filters.head? = some filter := by
  rw [resolve] at h
  split at h
  · cases h
  · next inner outer hfilters => exact ⟨inner, by rw [hfilters]; rfl⟩

/-- Naming a scope selects it together with its namesakes. -/
theorem resolve_ofScope (h : table.get? id = some scope) :
    table.resolve (.ofScope scope.kind scope.name) =
      .ok (some (table.find scope.kind scope.name)) := by
  have hmatched : table.unmatched? [(scope.kind, scope.name)] = none := by
    refine List.find?_eq_none.mpr fun filter hfilter => ?_
    obtain rfl := List.mem_singleton.mp hfilter
    rw [List.isEmpty_iff]
    exact List.ne_nil_of_mem (mem_find_of_get? h)
  rw [resolve, Constraint.filters_ofScope]
  simp only [hmatched]
  rfl

end ScopeTable

end ExactEdit
