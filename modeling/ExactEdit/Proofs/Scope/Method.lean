import ExactEdit.Proofs.Scope.Owner

/-! # Methods

In Python a function right inside a class is a method, in Rust one inside an implementation or a
trait. The rules of both languages look for the nearest definition above the function. In the scope
table that is a statement about parents: in Python the parent of a method is a class, and in Rust
the first scope around a method that is no namespace is a class or an interface.

## Main definitions

* `pythonTitles`, `rustTitles` — the definitions of a language
* `ParseTree.TellsMethods` — the methods of a table are told by what they are inside of

## Main results

* `python_sortsFunctions`, `rust_sortsFunctions` — how the languages tell methods from functions
* `tellsMethods_of_sortsFunctions` — such a rule leads to such a table
* `methods_follow_nesting` — the methods of both languages
-/

namespace ExactEdit

open ParseTree Declaration

variable {tree : ParseTree} {above : List Node} {chars : List Char} {declared : Declaration}
variable {titles : List (String × FieldName)} {types : List String} {kind : String}
variable {field : FieldName} {language : Language} {text : String}
variable {nameOf : List Char → List Char}

/-! ## The rules of two languages -/

theorem kind_of_namedBy? {kind : ScopeKind}
    (h : namedBy? nameOf chars tree kind field = some declared) : declared.kind = kind := by
  obtain ⟨text, -, rfl⟩ := Option.map_eq_some_iff.mp h
  rfl

theorem exists_namedBy? (nameOf : List Char → List Char) (kind : ScopeKind)
    (h : fieldText? chars tree field ≠ none) :
    ∃ declared, namedBy? nameOf chars tree kind field = some declared := by
  obtain ⟨text, htext⟩ := Option.ne_none_iff_exists'.mp h
  exact ⟨_, by rw [namedBy?, htext, Option.map_some]⟩

/-- The kinds of definitions in Python, and the fields of their names. -/
def pythonTitles : List (String × FieldName) :=
  [("function_definition", .name), ("class_definition", .name)]

/-- The kinds of definitions in Rust, and the fields of their names. -/
def rustTitles : List (String × FieldName) :=
  [("impl_item", .type), ("trait_item", .name), ("function_item", .name)]

theorem nearestIsType_python_iff : NearestIsType pythonTitles ["class_definition"] above ↔
    nearestKind? ["function_definition", "class_definition"] above = some "class_definition" := by
  simp [NearestIsType, pythonTitles]

theorem nearestIsType_rust_iff : NearestIsType rustTitles ["impl_item", "trait_item"] above ↔
    nearestKind? ["impl_item", "trait_item", "function_item"] above = some "impl_item" ∨
    nearestKind? ["impl_item", "trait_item", "function_item"] above = some "trait_item" := by
  simp [NearestIsType, rustTitles]

/-- What Python declares. -/
theorem sorts_of_python? (h : python? chars above tree = some declared) :
    (tree.label.kind = "function_definition" ∧
      (declared.kind = .method ∧ NearestIsType pythonTitles ["class_definition"] above ∨
        declared.kind = .function ∧ ¬ NearestIsType pythonTitles ["class_definition"] above)) ∨
    (tree.label.kind = "class_definition" ∧ declared.kind = .classBody) := by
  rw [nearestIsType_python_iff]
  simp only [python?] at h
  split at h
  · next hkind =>
    refine .inl ⟨hkind, ?_⟩
    split at h
    · next howner => exact .inl ⟨kind_of_namedBy? h, howner⟩
    · next howner => exact .inr ⟨kind_of_namedBy? h, howner⟩
  · next hkind => exact .inr ⟨hkind, kind_of_namedBy? h⟩
  · cases h

/-- What Rust declares. -/
theorem sorts_of_rust? (h : rust? chars above tree = some declared) :
    (tree.label.kind = "function_item" ∧
      (declared.kind = .method ∧ NearestIsType rustTitles ["impl_item", "trait_item"] above ∨
        declared.kind = .function ∧
          ¬ NearestIsType rustTitles ["impl_item", "trait_item"] above)) ∨
    (tree.label.kind = "impl_item" ∧ declared.kind = .classBody) ∨
    (tree.label.kind = "trait_item" ∧ declared.kind = .interface) ∨
    (tree.label.kind = "mod_item" ∧ declared.kind = .nameSpace) := by
  rw [nearestIsType_rust_iff]
  simp only [rust?] at h
  split at h
  · next hkind =>
    refine .inl ⟨hkind, ?_⟩
    split at h
    · next howner => exact .inl ⟨kind_of_namedBy? h, howner⟩
    · next howner => exact .inr ⟨kind_of_namedBy? h, howner⟩
  · next hkind => exact .inr (.inl ⟨hkind, kind_of_namedBy? h⟩)
  · next hkind => exact .inr (.inr (.inl ⟨hkind, kind_of_namedBy? h⟩))
  · next hkind =>
    obtain ⟨body, -, hnamed⟩ := Option.bind_eq_some_iff.mp h
    exact .inr (.inr (.inr ⟨hkind, kind_of_namedBy? hnamed⟩))
  · cases h

/-- In Python functions are sorted by the nearest function or class. -/
theorem python_sortsFunctions (chars : List Char) :
    SortsFunctions chars (declaration? .python chars) pythonTitles ["class_definition"]
      "function_definition" where
  kind_mem := by decide
  types_mem := by decide
  kind_notMem := by decide
  declares := by
    intro above found title htitle hkind htext
    simp only [pythonTitles, List.mem_cons, List.not_mem_nil, or_false] at htitle
    rcases htitle with rfl | rfl
    · simp only [declaration?, python?, hkind]
      split
      · exact exists_namedBy? id _ htext
      · exact exists_namedBy? id _ htext
    · simp only [declaration?, python?, hkind]
      exact exists_namedBy? id _ htext
  sorts := by
    intro above found declared hrule
    rcases sorts_of_python? hrule with hfunction | ⟨hkind, hdeclared⟩
    · exact .inl hfunction
    · exact .inr (.inl ⟨by rw [hkind]; decide, .inl hdeclared⟩)

/-- In Rust functions are sorted by the nearest function, implementation or trait. -/
theorem rust_sortsFunctions (chars : List Char) :
    SortsFunctions chars (declaration? .rust chars) rustTitles ["impl_item", "trait_item"]
      "function_item" where
  kind_mem := by decide
  types_mem := by decide
  kind_notMem := by decide
  declares := by
    intro above found title htitle hkind htext
    simp only [rustTitles, List.mem_cons, List.not_mem_nil, or_false] at htitle
    rcases htitle with rfl | rfl | rfl
    · simp only [declaration?, rust?, hkind]
      exact exists_namedBy? simpleName _ htext
    · simp only [declaration?, rust?, hkind]
      exact exists_namedBy? id _ htext
    · simp only [declaration?, rust?, hkind]
      split
      · exact exists_namedBy? id _ htext
      · exact exists_namedBy? id _ htext
  sorts := by
    intro above found declared hrule
    rcases sorts_of_rust? hrule with
      hfunction | ⟨hkind, hdeclared⟩ | ⟨hkind, hdeclared⟩ | ⟨hkind, hdeclared⟩
    · exact .inl hfunction
    · exact .inr (.inl ⟨by rw [hkind]; decide, .inl hdeclared⟩)
    · exact .inr (.inl ⟨by rw [hkind]; decide, .inr hdeclared⟩)
    · exact .inr (.inr ⟨by rw [hkind]; decide, hdeclared⟩)

/-! ## Methods of a table -/

/-- Whether the scope with a number is that of a node of a kind. -/
def ParseTree.IsScopeOf (language : Language) (text : String) (tree : ParseTree) (id : Nat)
    (kind : String) : Prop :=
  ∃ site, (tree.sites (declaration? language text.toList) [])[id]? = some site ∧
    site.label.kind = kind

/-- In the table of a tree the methods and functions are the scopes of the nodes of a kind: methods
if they are `inside`, and functions otherwise. Every such node has a scope. -/
structure ParseTree.TellsMethods (language : Language) (text : String) (tree : ParseTree)
    (kind : String) (inside : Scope → Prop) : Prop where
  exists_site : ∀ path above found, tree.follow? path [] = some (above, found) →
    found.label.kind = kind →
      ∃ site ∈ tree.sites (declaration? language text.toList) [], site.path = path
  method_iff : ∀ id scope, (tree.scopeTable language text).get? id = some scope →
    (scope.kind = .method ↔ tree.IsScopeOf language text id kind ∧ inside scope)
  function_iff : ∀ id scope, (tree.scopeTable language text).get? id = some scope →
    (scope.kind = .function ↔ tree.IsScopeOf language text id kind ∧ ¬ inside scope)

/-- If a rule tells methods by the nearest definition above, then parents tell them. -/
theorem tellsMethods_of_sortsFunctions
    (hsorts : SortsFunctions text.toList (declaration? language text.toList) titles types kind)
    (htitles : tree.HasTitles text.toList titles) :
    tree.TellsMethods language text kind (tree.scopeTable language text).InType := by
  have htable := scopes_ofParse language (Source.ofString text) tree
  -- A scope has a site, and this has the kind of a node with the same nodes above.
  have hsite : ∀ id scope, (tree.scopeTable language text).get? id = some scope →
      ∃ above found, (tree.IsScopeOf language text id kind ↔ found.label.kind = kind) ∧
        declaration? language text.toList above found = some ⟨scope.kind, scope.name⟩ ∧
        ((tree.scopeTable language text).InType scope ↔ NearestIsType titles types above) := by
    intro id scope hscope
    obtain ⟨site, hget, rfl⟩ := exists_site_of_scopes_eq htable hscope
    obtain ⟨above, found, hfollow, hlabel, -, hrule⟩ :=
      (mem_sites_iff tree [] site).mp (List.mem_of_getElem? hget)
    refine ⟨above, found, ?_, hrule, inType_iff htable hsorts htitles hfollow rfl⟩
    constructor
    · rintro ⟨other, hother, hkind⟩
      obtain rfl := Option.some.inj (hget.symm.trans hother)
      rw [hlabel]
      exact hkind
    · intro hkind
      exact ⟨site, hget, by rw [← hlabel, hkind]⟩
  constructor
  · intro path above found hfollow hkind
    obtain ⟨title, htitle, heq⟩ := List.mem_map.mp hsorts.kind_mem
    obtain ⟨declared, hmem⟩ :=
      hsorts.exists_declared htitles hfollow htitle (hkind.trans heq.symm)
    exact ⟨_, hmem, rfl⟩
  · intro id scope hscope
    obtain ⟨above, found, hkind, hrule, hinside⟩ := hsite id scope hscope
    rw [hkind, hinside]
    exact hsorts.method_iff hrule
  · intro id scope hscope
    obtain ⟨above, found, hkind, hrule, hinside⟩ := hsite id scope hscope
    rw [hkind, hinside]
    exact hsorts.function_iff hrule

/-- The table of a text in Python has neither namespaces nor interfaces. -/
theorem inType_eq_inClass_python (text : String) (tree : ParseTree) :
    (tree.scopeTable .python text).InType = (tree.scopeTable .python text).InClass := by
  funext scope
  refine propext (ScopeTable.inType_iff_inClass fun id outer houter => ?_)
  obtain ⟨site, hget, rfl⟩ :=
    exists_site_of_scopes_eq (scopes_ofParse .python (Source.ofString text) tree) houter
  obtain ⟨above, found, -, -, -, hrule⟩ :=
    (mem_sites_iff tree [] site).mp (List.mem_of_getElem? hget)
  change site.declared.kind ≠ _ ∧ site.declared.kind ≠ _
  rcases sorts_of_python? hrule with ⟨-, ⟨hkind, -⟩ | ⟨hkind, -⟩⟩ | ⟨-, hkind⟩
  · simp [hkind]
  · simp [hkind]
  · simp [hkind]

/-- In Python, with all functions and classes named, the methods are the functions whose parent is a
class. In Rust, with all functions, implementations and traits named, they are the functions for
which the first scope around them that is no namespace is a class or an interface. -/
theorem methods_follow_nesting (text : String) (tree : ParseTree) :
    (tree.HasTitles text.toList pythonTitles →
      tree.TellsMethods .python text "function_definition"
        (tree.scopeTable .python text).InClass) ∧
    (tree.HasTitles text.toList rustTitles →
      tree.TellsMethods .rust text "function_item" (tree.scopeTable .rust text).InType) := by
  constructor
  · intro htitles
    rw [← inType_eq_inClass_python]
    exact tellsMethods_of_sortsFunctions (python_sortsFunctions _) htitles
  · intro htitles
    exact tellsMethods_of_sortsFunctions (rust_sortsFunctions _) htitles

/-! ### A class in a class

The inner class has a class as its parent as well, and is a class itself. -/

/-- A class in a class, in Python. -/
def innerClassText : String := "class A:\n    class B:\n        pass\n"

/-- A tree of that text. -/
def innerClassTree : ParseTree :=
  let name (start : Nat) :=
    ParseTree.node ⟨"identifier", true, false, false, false, ⟨start, start + 1⟩, some .name⟩ []
  let body (start : Nat) (below : List ParseTree) :=
    ParseTree.node ⟨"block", true, false, false, false, ⟨start, 34⟩, some .body⟩ below
  let classNode (start : Nat) (below : List ParseTree) :=
    ParseTree.node ⟨"class_definition", true, false, false, false, ⟨start, 34⟩, none⟩
      [name (start + 6), body (start + 13) below]
  .node ⟨"module", true, false, false, false, ⟨0, 35⟩, none⟩
    [classNode 0 [classNode 13
      [.node ⟨"pass_statement", true, false, false, false, ⟨30, 34⟩, none⟩ []]]]

/-- The inner class is a scope whose parent is a class, and no method. -/
theorem innerClass_no_method : innerClassTree.HasTitles innerClassText.toList pythonTitles ∧
    ¬ ∀ id scope, (innerClassTree.scopeTable .python innerClassText).get? id = some scope →
      (scope.kind = .method ↔
        (innerClassTree.scopeTable .python innerClassText).InClass scope) := by
  refine ⟨by decide +kernel, fun h => ?_⟩
  have hinner : ((innerClassTree.scopeTable .python innerClassText).get? 1).map
      (fun scope => (scope.kind, scope.parent)) = some (.classBody, some 0) := by
    decide +kernel
  have houter : ((innerClassTree.scopeTable .python innerClassText).get? 0).map (·.kind) =
      some .classBody := by
    decide +kernel
  obtain ⟨inner, hget, heq⟩ := Option.map_eq_some_iff.mp hinner
  obtain ⟨hkind, hparent⟩ := Prod.mk.inj heq
  obtain ⟨outer, hget', hkind'⟩ := Option.map_eq_some_iff.mp houter
  have hmethod : inner.kind = .method := (h 1 inner hget).mpr ⟨0, outer, hparent, hget', hkind'⟩
  exact absurd (hkind.symm.trans hmethod) (by decide)

/-! ### A function in a method

The inner function is in a module, and that is in a method. -/

/-- A function in a module in a method of an implementation, in Rust. -/
def innerFunctionText : String := "impl A{fn f(){mod m{fn g(){}}}}"

/-- A tree of that text. -/
def innerFunctionTree : ParseTree :=
  let leaf (kind : String) (start stop : Nat) (field : FieldName) :=
    ParseTree.node ⟨kind, true, false, false, false, ⟨start, stop⟩, some field⟩ []
  let body (kind : String) (start stop : Nat) (below : List ParseTree) :=
    ParseTree.node ⟨kind, true, false, false, false, ⟨start, stop⟩, some .body⟩ below
  let function (start stop : Nat) (below : List ParseTree) :=
    ParseTree.node ⟨"function_item", true, false, false, false, ⟨start, stop⟩, none⟩
      [leaf "identifier" (start + 3) (start + 4) .name, body "block" (start + 6) stop below]
  let module := ParseTree.node ⟨"mod_item", true, false, false, false, ⟨14, 29⟩, none⟩
    [leaf "identifier" 18 19 .name, body "declaration_list" 19 29 [function 20 28 []]]
  .node ⟨"source_file", true, false, false, false, ⟨0, 31⟩, none⟩
    [.node ⟨"impl_item", true, false, false, false, ⟨0, 31⟩, none⟩
      [leaf "type_identifier" 5 6 .type, body "declaration_list" 6 31 [function 7 30 [module]]]]

example : (innerFunctionTree.scopeTable .rust innerFunctionText).scopes.map
    (fun scope => (scope.kind, scope.name, scope.parent)) =
      [(.classBody, "A", none), (.method, "f", some 0), (.nameSpace, "m", some 1),
        (.function, "g", some 2)] := by
  decide +kernel

/-- The function in the module is not inside the implementation, as the method is in between. The
method of a class in Python is inside the class. -/
theorem innerFunction_in_method :
    innerFunctionTree.HasTitles innerFunctionText.toList rustTitles ∧
    twinTree.HasTitles twinText.toList pythonTitles ∧
    (∃ scope, (innerFunctionTree.scopeTable .rust innerFunctionText).get? 3 = some scope ∧
      ¬ (innerFunctionTree.scopeTable .rust innerFunctionText).InType scope) ∧
    (∃ scope, (twinTree.scopeTable .python twinText).get? 1 = some scope ∧
      (twinTree.scopeTable .python twinText).InClass scope) := by
  have hrust : innerFunctionTree.HasTitles innerFunctionText.toList rustTitles := by
    decide +kernel
  have hpython : twinTree.HasTitles twinText.toList pythonTitles := by
    decide +kernel
  refine ⟨hrust, hpython, ?_, ?_⟩
  · have hfunction : ((innerFunctionTree.scopeTable .rust innerFunctionText).get? 3).map (·.kind) =
        some .function := by
      decide +kernel
    obtain ⟨scope, hscope, hkind⟩ := Option.map_eq_some_iff.mp hfunction
    have htells := (methods_follow_nesting innerFunctionText innerFunctionTree).2 hrust
    exact ⟨scope, hscope, ((htells.function_iff 3 scope hscope).mp hkind).2⟩
  · have hmethod : ((twinTree.scopeTable .python twinText).get? 1).map (·.kind) =
        some .method := by
      decide +kernel
    obtain ⟨scope, hscope, hkind⟩ := Option.map_eq_some_iff.mp hmethod
    have htells := (methods_follow_nesting twinText twinTree).1 hpython
    exact ⟨scope, hscope, ((htells.method_iff 1 scope hscope).mp hkind).2⟩

end ExactEdit
