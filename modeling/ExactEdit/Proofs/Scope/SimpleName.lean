import ExactEdit.Proofs.Check.Grammar
import ExactEdit.Scope.Declaration
import Mathlib.Data.List.DropRight
import Mathlib.Data.List.Infix

/-! # Names at the end of paths

A path is a sequence of segments, divided by two colons or a dot, and every segment is an identifier
with or without arguments in angle brackets. The simple name of a path is looked for in front of the
first angle bracket. So it is the identifier of the first segment that has arguments, and that of
the last if none has: a path is given its own name as long as no other segment has arguments.

## Main definitions

* `PathSegment`, `NamePath` — segments and sequences of them
* `NamePath.last`, `NamePath.shown` — the segment a path should be named after, and the one it is

## Main results

* `simpleName_text` — the simple name of a path
* `simpleName_simpleName` — a simple name is its own simple name
* `path_named_after_last_iff` — which paths are named after their last segment, and the scopes
  declared under them
-/

namespace ExactEdit

variable {chars name front rest tail reversed : List Char}

/-! ## Paths -/

/-- A character of an identifier: no angle bracket, no part of a mark between segments, no blank. -/
def IsNameChar (c : Char) : Prop :=
  c ∉ ['<', '>', ':', '.'] ∧ Text.isBlank c = false

instance : DecidablePred IsNameChar := fun _ => inferInstanceAs (Decidable (_ ∧ _))

/-- A segment of a path: an identifier, and perhaps a list of arguments between angle brackets that
are balanced among themselves. -/
structure PathSegment where
  name : List Char
  arguments : List Char
  name_ne_nil : name ≠ []
  name_chars : ∀ c ∈ name, IsNameChar c
  arguments_nested : arguments = [] ∨
    ∃ inner, arguments = '<' :: (inner ++ ['>']) ∧ Nested '<' '>' (delimiters '<' '>' inner)

/-- What stands between two segments. -/
inductive PathMark where
  | colons
  | dot

/-- The characters of a mark. -/
def PathMark.text : PathMark → List Char
  | colons => [':', ':']
  | dot => ['.']

/-- A sequence of segments, not empty, with marks between them. -/
inductive NamePath where
  | single (segment : PathSegment)
  | cons (segment : PathSegment) (mark : PathMark) (rest : NamePath)

namespace NamePath

/-- A path as it is written. -/
def text : NamePath → List Char
  | single segment => segment.name ++ segment.arguments
  | cons segment mark rest => segment.name ++ (segment.arguments ++ (mark.text ++ rest.text))

/-- The last segment. -/
def last : NamePath → PathSegment
  | single segment => segment
  | cons _ _ rest => rest.last

/-- The segments in front of the last. -/
def earlier : NamePath → List PathSegment
  | single _ => []
  | cons segment _ rest => segment :: rest.earlier

/-- The first segment that has arguments, or the last if none has. -/
def shown : NamePath → PathSegment
  | single segment => segment
  | cons segment _ rest => if segment.arguments = [] then rest.shown else segment

end NamePath

/-! ## Marks -/

theorem isPrefix_untilColons (reversed : List Char) : untilColons reversed <+: reversed := by
  fun_induction untilColons reversed with
  | case1 rest => exact List.nil_prefix
  | case2 c rest _ ih => exact (List.prefix_cons_inj c).mpr ih
  | case3 => exact List.prefix_rfl

/-- What is in front of a mark of two colons has none in it. -/
theorem not_isInfix_untilColons (reversed : List Char) :
    ¬ [':', ':'] <:+: untilColons reversed := by
  fun_induction untilColons reversed with
  | case1 rest => simp
  | case2 c rest hcolons ih =>
    rw [List.infix_cons_iff]
    rintro (hfirst | hlater)
    · -- Two colons in front would have been met as such.
      obtain ⟨rfl, hsecond⟩ := List.cons_prefix_cons.mp hfirst
      obtain ⟨behind, rfl⟩ := hsecond.trans (isPrefix_untilColons rest)
      exact hcolons behind rfl rfl
    · exact ih hlater
  | case3 => simp

theorem untilColons_eq_self (h : ¬ [':', ':'] <:+: reversed) : untilColons reversed = reversed := by
  fun_induction untilColons reversed with
  | case1 rest => exact absurd (List.prefix_append [':', ':'] rest).isInfix h
  | case2 c rest _ ih =>
    rw [ih fun hlater => h (List.infix_cons_iff.mpr (.inr hlater))]
  | case3 => rfl

/-- Without a colon in front, the search for a mark begins behind. -/
theorem untilColons_append (h : ':' ∉ name) (rest : List Char) :
    untilColons (name ++ rest) = name ++ untilColons rest := by
  induction name with
  | nil => rfl
  | cons c name ih =>
    rw [List.mem_cons, not_or] at h
    rw [List.cons_append, untilColons, ih h.2, List.cons_append]
    rintro _ rfl
    exact absurd rfl h.1

/-- What is in front of a text and ends the segment there: nothing, or a mark. -/
def EndsSegment (front : List Char) : Prop :=
  front = [] ∨ ∃ (init : List Char) (mark : PathMark), front = init ++ mark.text

/-- Read from the end, an identifier goes on to the mark in front of it. -/
theorem lastSegment_append (hname : ∀ c ∈ name, IsNameChar c) (hfront : EndsSegment front) :
    (untilColons (front ++ name).reverse).takeWhile (· != '.') = name.reverse := by
  have hcolon : ':' ∉ name.reverse := by
    intro hmem
    exact (hname ':' (List.mem_reverse.mp hmem)).1 (by decide)
  have hdot : ∀ c ∈ name.reverse, (c != '.') = true := by
    intro c hmem
    rw [bne_iff_ne]
    rintro rfl
    exact (hname '.' (List.mem_reverse.mp hmem)).1 (by decide)
  rw [List.reverse_append, untilColons_append hcolon, List.takeWhile_append_of_pos hdot]
  rcases hfront with rfl | ⟨init, mark | mark, rfl⟩
  · simp [untilColons]
  · simp [PathMark.text, untilColons]
  · simp [PathMark.text, untilColons]

/-! ## Blanks -/

namespace Text

theorem trim_isInfix (chars : List Char) : trim chars <:+: chars :=
  (List.rdropWhile_prefix isBlank _).isInfix.trans (List.dropWhile_suffix isBlank).isInfix

theorem trim_trim (chars : List Char) : trim (trim chars) = trim chars := by
  -- The first character that is left at the front is still first when the end is cut.
  have hstart : trimStart (trim chars) = trim chars := by
    refine List.dropWhile_eq_self_iff.mpr fun hlength hblank => ?_
    have hfront : trim chars <+: trimStart chars := List.rdropWhile_prefix isBlank _
    rw [hfront.getElem hlength] at hblank
    exact List.dropWhile_get_zero_not isBlank chars _ hblank
  rw [trim, hstart]
  exact List.rdropWhile_idempotent isBlank _

theorem trim_eq_self (h : ∀ c ∈ chars, isBlank c = false) : trim chars = chars := by
  have hstart : trimStart chars = chars := by
    refine List.dropWhile_eq_self_iff.mpr fun hlength => ?_
    rw [h _ (List.getElem_mem hlength)]
    exact Bool.false_ne_true
  rw [trim, hstart]
  refine List.rdropWhile_eq_self_iff.mpr fun hne => ?_
  rw [h _ (List.getLast_mem hne)]
  exact Bool.false_ne_true

end Text

/-! ## Simple names -/

/-- An identifier behind a mark, with nothing but arguments behind it, is the simple name. -/
theorem simpleName_append (hname : ∀ c ∈ name, IsNameChar c) (hbracket : '<' ∉ front)
    (hfront : EndsSegment front) (htail : tail = [] ∨ ∃ rest, tail = '<' :: rest) :
    simpleName (front ++ (name ++ tail)) = name := by
  have hhead : (front ++ (name ++ tail)).takeWhile (· != '<') = front ++ name := by
    have hclean : ∀ c ∈ front ++ name, (c != '<') = true := by
      intro c hmem
      rw [bne_iff_ne]
      rintro rfl
      rcases List.mem_append.mp hmem with hmem | hmem
      · exact hbracket hmem
      · exact (hname '<' hmem).1 (by decide)
    rw [← List.append_assoc, List.takeWhile_append_of_pos hclean]
    rcases htail with rfl | ⟨rest, rfl⟩
    · simp
    · simp
  rw [simpleName, hhead, lastSegment_append hname hfront, List.reverse_reverse]
  exact Text.trim_eq_self fun c hmem => (hname c hmem).2

/-- Without brackets and marks only the blanks are taken off. -/
theorem simpleName_eq_trim (hbracket : '<' ∉ name) (hcolons : ¬ [':', ':'] <:+: name)
    (hdot : '.' ∉ name) : simpleName name = Text.trim name := by
  have hhead : name.takeWhile (· != '<') = name := by
    refine List.takeWhile_eq_self_iff.mpr fun c hmem => ?_
    rw [bne_iff_ne]
    rintro rfl
    exact hbracket hmem
  have hsegment : name.reverse.takeWhile (· != '.') = name.reverse := by
    refine List.takeWhile_eq_self_iff.mpr fun c hmem => ?_
    rw [bne_iff_ne]
    rintro rfl
    exact hdot (List.mem_reverse.mp hmem)
  have hreversed : ¬ [':', ':'] <:+: name.reverse := by
    intro hinfix
    exact hcolons (List.reverse_infix.mp hinfix)
  rw [simpleName, hhead, untilColons_eq_self hreversed, hsegment, List.reverse_reverse]

/-- A simple name has neither brackets nor marks in it. -/
theorem simpleName_clean (path : List Char) : '<' ∉ simpleName path ∧
    ¬ [':', ':'] <:+: simpleName path ∧ '.' ∉ simpleName path := by
  -- It is a piece of what is in front of the bracket, and of what is behind the last mark.
  have hsegment := List.takeWhile_prefix (· != '.') (l :=
    untilColons (path.takeWhile (· != '<')).reverse)
  have hname := (Text.trim_isInfix ((untilColons
    (path.takeWhile (· != '<')).reverse).takeWhile (· != '.')).reverse)
  have hhead := hsegment.trans (isPrefix_untilColons _)
  refine ⟨?_, ?_, ?_⟩
  · intro hmem
    have hin := hhead.subset (List.mem_reverse.mp (hname.subset hmem))
    simpa using List.mem_takeWhile_imp (List.mem_reverse.mp hin)
  · intro hcolons
    have hreversed := List.reverse_infix.mpr (hcolons.trans hname)
    rw [List.reverse_reverse] at hreversed
    exact not_isInfix_untilColons _ (hreversed.trans hsegment.isInfix)
  · intro hmem
    simpa using List.mem_takeWhile_imp (List.mem_reverse.mp (hname.subset hmem))

/-- A simple name is its own simple name. -/
theorem simpleName_simpleName (path : List Char) :
    simpleName (simpleName path) = simpleName path := by
  obtain ⟨hbracket, hcolons, hdot⟩ := simpleName_clean path
  rw [simpleName_eq_trim hbracket hcolons hdot]
  exact Text.trim_trim _

/-! ## Names of paths -/

namespace NamePath

/-- No bracket is in front of the segment that is shown, and behind its identifier there are at most
arguments, or what these are followed by. -/
theorem exists_text_eq (path : NamePath) : ∃ front tail,
    path.text = front ++ (path.shown.name ++ tail) ∧ '<' ∉ front ∧ EndsSegment front ∧
      (tail = [] ∨ ∃ rest, tail = '<' :: rest) := by
  have harguments : ∀ (segment : PathSegment) (behind : List Char), segment.arguments ≠ [] →
      ∃ rest, segment.arguments ++ behind = '<' :: rest := by
    intro segment behind hne
    obtain ⟨inner, hinner, -⟩ := segment.arguments_nested.resolve_left hne
    exact ⟨inner ++ ['>'] ++ behind, by rw [hinner]; rfl⟩
  induction path with
  | single segment =>
    refine ⟨[], segment.arguments, rfl, List.not_mem_nil, .inl rfl, ?_⟩
    by_cases hnone : segment.arguments = []
    · exact .inl hnone
    · right
      simpa using harguments segment [] hnone
  | cons segment mark rest ih =>
    by_cases hnone : segment.arguments = []
    · -- The segment and its mark come in front of what is in front in the rest.
      obtain ⟨front, tail, htext, hbracket, hfront, htail⟩ := ih
      refine ⟨segment.name ++ (mark.text ++ front), tail, ?_, ?_, ?_, htail⟩
      · simp [text, shown, hnone, htext]
      · rw [List.mem_append, List.mem_append]
        rintro (hname | hmark | hmem)
        · exact (segment.name_chars '<' hname).1 (by decide)
        · cases mark <;> simp [PathMark.text] at hmark
        · exact hbracket hmem
      · rcases hfront with rfl | ⟨init, other, rfl⟩
        · exact .inr ⟨segment.name, mark, by simp⟩
        · exact .inr ⟨segment.name ++ (mark.text ++ init), other, by simp⟩
    · refine ⟨[], segment.arguments ++ (mark.text ++ rest.text), ?_, List.not_mem_nil, .inl rfl,
        .inr (harguments segment _ hnone)⟩
      simp [text, shown, hnone]

/-- The simple name of a path is the identifier of the first segment with arguments. -/
theorem simpleName_text (path : NamePath) : simpleName path.text = path.shown.name := by
  obtain ⟨front, tail, htext, hbracket, hfront, htail⟩ := path.exists_text_eq
  rw [htext]
  exact simpleName_append path.shown.name_chars hbracket hfront htail

theorem shown_eq_last {path : NamePath} (h : ∀ segment ∈ path.earlier, segment.arguments = []) :
    path.shown = path.last := by
  induction path with
  | single segment => rfl
  | cons segment mark rest ih =>
    rw [earlier, List.forall_mem_cons] at h
    rw [shown, if_pos h.1, last]
    exact ih h.2

end NamePath

/-! ## Scopes declared under paths -/

section Declarations

variable {tree inner bearer : ParseTree} {path : NamePath}

/-- A declarator around another bears the name that the other bears. -/
theorem bearingDeclarator?_of_inner (hwrapping : Declaration.isWrappingDeclarator tree.label.kind)
    (hinner : Declaration.innerDeclarator? tree = some inner) :
    Declaration.bearingDeclarator? tree = Declaration.bearingDeclarator? inner := by
  rw [Declaration.bearingDeclarator?, if_pos hwrapping]
  split
  · next found hfound =>
    obtain rfl := Option.some.inj (hfound.symm.trans hinner)
    rfl
  · next hnone =>
    rw [hinner] at hnone
    cases hnone

theorem bearingDeclarator?_self (h : ¬ Declaration.isWrappingDeclarator tree.label.kind) :
    Declaration.bearingDeclarator? tree = some tree := by
  rw [Declaration.bearingDeclarator?, if_neg h]

/-- An implementation is a class, under the simple name of the path that is its type. -/
theorem declaration?_implementation (above : List Node) (hkind : tree.label.kind = "impl_item")
    (htype : Declaration.fieldText? chars tree .type = some path.text) :
    declaration? .rust chars above tree =
      some ⟨.classBody, String.ofList path.shown.name⟩ := by
  rw [declaration?, Declaration.rust?, hkind]
  simp only [Declaration.simplyNamed?, Declaration.namedBy?, htype, Option.map_some,
    NamePath.simpleName_text]

/-- A function has the simple name of the path in its declarator. -/
theorem declaration?_member (above : List Node) (hkind : tree.label.kind = "function_definition")
    (hbearer : (tree.childByField? .declarator).bind Declaration.bearingDeclarator? = some bearer)
    (htext : bearer.label.text? chars = some path.text) :
    ∃ kind, declaration? .cpp chars above tree =
      some ⟨kind, String.ofList path.shown.name⟩ := by
  obtain ⟨declarator, hdeclarator, hbears⟩ := Option.bind_eq_some_iff.mp hbearer
  rw [declaration?, Declaration.cpp?, hkind]
  simp only [hdeclarator, hbears, htext, Option.bind_eq_bind, Option.bind_some,
    NamePath.simpleName_text, Option.pure_def]
  split
  · exact ⟨.method, rfl⟩
  · exact ⟨.function, rfl⟩

end Declarations

/-- A path is named after its last segment exactly if the first segment with arguments, or the last
if there is none, has the same identifier; always so if no other segment has arguments. The scope of
an implementation for a path, or of a function defined under it, is then found under its own name,
and only then. Naming a name again changes nothing. -/
theorem path_named_after_last_iff (path : NamePath) :
    (simpleName path.text = path.last.name ↔ path.shown.name = path.last.name) ∧
    ((∀ segment ∈ path.earlier, segment.arguments = []) → path.shown = path.last) ∧
    (∀ chars above tree, tree.label.kind = "impl_item" →
      Declaration.fieldText? chars tree .type = some path.text →
        ((declaration? .rust chars above tree).map (·.name) = some (String.ofList path.last.name) ↔
          path.shown.name = path.last.name)) ∧
    (∀ chars above tree bearer, tree.label.kind = "function_definition" →
      (tree.childByField? .declarator).bind Declaration.bearingDeclarator? = some bearer →
        bearer.label.text? chars = some path.text →
        ((declaration? .cpp chars above tree).map (·.name) = some (String.ofList path.last.name) ↔
          path.shown.name = path.last.name)) ∧
    ∀ text, simpleName (simpleName text) = simpleName text := by
  have hsame : some (String.ofList path.shown.name) = some (String.ofList path.last.name) ↔
      path.shown.name = path.last.name := by
    rw [Option.some_inj]
    exact String.ofList_inj
  refine ⟨by rw [path.simpleName_text], NamePath.shown_eq_last, ?_, ?_, simpleName_simpleName⟩
  · intro chars above tree hkind htype
    rw [declaration?_implementation above hkind htype]
    exact hsame
  · intro chars above tree bearer hkind hbearer htext
    obtain ⟨kind, hdeclared⟩ := declaration?_member above hkind hbearer htext
    rw [hdeclared]
    exact hsame

/-! ### A member of a class with arguments

The function `f` of the class `A<T>` is defined outside of it, under the path `A<T>::f`. -/

/-- The class with its arguments. -/
def classSegment : PathSegment where
  name := ['A']
  arguments := "<T>".toList
  name_ne_nil := by decide
  name_chars := List.forall_mem_singleton.mpr (by decide)
  arguments_nested := .inr ⟨['T'], by decide, .empty⟩

/-- The function. -/
def memberSegment : PathSegment where
  name := ['f']
  arguments := []
  name_ne_nil := by decide
  name_chars := List.forall_mem_singleton.mpr (by decide)
  arguments_nested := .inl rfl

/-- The path of the function. -/
def memberPath : NamePath :=
  .cons classSegment .colons (.single memberSegment)

/-- The path in the parse tree of the definition. -/
def memberBearer : ParseTree :=
  .node ⟨"qualified_identifier", true, false, false, false, ⟨5, 12⟩, some .declarator⟩ []

/-- The parse tree of the definition `void A<T>::f() {}`, down to the path. -/
def memberTree : ParseTree :=
  .node ⟨"function_definition", true, false, false, false, ⟨0, 17⟩, none⟩
    [.node ⟨"primitive_type", true, false, false, false, ⟨0, 4⟩, some .type⟩ [],
      .node ⟨"function_declarator", true, false, false, false, ⟨5, 14⟩, some .declarator⟩
        [memberBearer, .node ⟨"parameter_list", true, false, false, false, ⟨12, 14⟩, none⟩ []],
      .node ⟨"compound_statement", true, false, false, false, ⟨15, 17⟩, some .body⟩ []]

theorem bearingDeclarator?_memberTree :
    (memberTree.childByField? .declarator).bind Declaration.bearingDeclarator? =
      some memberBearer :=
  (bearingDeclarator?_of_inner (by decide) rfl).trans (bearingDeclarator?_self (by decide))

/-- The function is declared under the name of the class. -/
theorem memberTree_named_after_class : memberPath.text = "A<T>::f".toList ∧
    memberPath.last.name = "f".toList ∧ simpleName "A<T>::f".toList = "A".toList ∧
    (declaration? .cpp "void A<T>::f() {}".toList [] memberTree).map (·.name) = some "A" := by
  have htext : memberBearer.label.text? "void A<T>::f() {}".toList = some memberPath.text := by
    decide
  obtain ⟨kind, hdeclared⟩ := declaration?_member [] rfl bearingDeclarator?_memberTree htext
  refine ⟨by decide, by decide, by decide, ?_⟩
  rw [hdeclared]
  rfl

/-- It is not found under its own name; a class with arguments is. -/
theorem memberTree_misnamed : memberTree.label.kind = "function_definition" ∧
    (declaration? .cpp "void A<T>::f() {}".toList [] memberTree).map (·.name) ≠ some "f" ∧
    simpleName "A<T>".toList = "A".toList := by
  obtain ⟨-, -, -, hmember, -⟩ := path_named_after_last_iff memberPath
  obtain ⟨hclass, -⟩ := path_named_after_last_iff (.single classSegment)
  refine ⟨rfl, fun hname => ?_, hclass.mpr rfl⟩
  have hsame := (hmember _ [] memberTree _ rfl bearingDeclarator?_memberTree (by decide)).mp hname
  exact absurd hsame (by decide)

end ExactEdit
