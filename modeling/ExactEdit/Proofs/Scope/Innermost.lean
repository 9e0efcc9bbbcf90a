import ExactEdit.Proofs.Scope.Ancestor
import ExactEdit.Proofs.Scope.Extent

/-! # The innermost scope

Occurrences are tagged with a scope that is found by two simple rules: of the scopes around their
lines the last that holds their bytes, or else the last. In a table whose scopes lie in each other
the first rule is exact. The scopes that hold the bytes are all on the lines, they are above one
another, and later scopes are further inside; so the last of them has the others as its ancestors,
and its qualified name is made of the names of all of them.

## Main definitions

* `IsLast` — the last number with a property
* `ScopeTable.IsInnermost` — the scopes that hold some bytes are a scope and its ancestors

## Main results

* `ScopeTable.innermost?_eq` — the two rules, in one line
* `Laminar.exists_innermost?` — where some scope holds the bytes, the innermost one is found
* `Laminar.exists_tag` — occurrences are tagged with it
* `innermost_scope_exact` — what is found, in the table of a tree
-/

namespace ExactEdit

open Relation Text

variable {table : ScopeTable} {source : Source} {chars : List Char} {sites : List Site}
variable {site other : Site} {range : ByteRange} {id first last : Nat} {ids : List Nat}

/-! ## The last of some numbers -/

/-- Whether a number is the last with a property. -/
def IsLast (condition : Nat → Prop) (id : Nat) : Prop :=
  condition id ∧ ∀ other, condition other → other ≤ id

theorem getLast?_eq_some_iff_isLast (h : ids.Pairwise (· < ·)) :
    ids.getLast? = some id ↔ IsLast (· ∈ ids) id := by
  have hlast : ∀ {id}, ids.getLast? = some id → IsLast (· ∈ ids) id := by
    intro id hid
    obtain ⟨init, rfl⟩ := List.getLast?_eq_some_iff.mp hid
    refine ⟨by simp, fun other hother => ?_⟩
    rcases List.mem_append.mp hother with hinit | hself
    · exact Nat.le_of_lt ((List.pairwise_append.mp h).2.2 other hinit id List.mem_cons_self)
    · exact Nat.le_of_eq (List.mem_singleton.mp hself)
  refine ⟨hlast, fun hid => ?_⟩
  have hfound := List.getLast?_eq_some_getLast (List.ne_nil_of_mem hid.1)
  -- Two last numbers are each at most the other.
  have hle := hid.2 _ (hlast hfound).1
  have hge := (hlast hfound).2 id hid.1
  rw [hfound, Nat.le_antisymm hle hge]

theorem exists_isLast_of_mem (h : ids.Pairwise (· < ·)) (hmem : id ∈ ids) :
    ∃ last, ids.getLast? = some last ∧ IsLast (· ∈ ids) last := by
  have hlast := List.getLast?_eq_some_getLast (List.ne_nil_of_mem hmem)
  exact ⟨_, hlast, (getLast?_eq_some_iff_isLast h).mp hlast⟩

namespace ScopeTable

/-- The scopes on the lines, in order; of these the last that holds the bytes, or else the last. -/
theorem innermost?_eq (table : ScopeTable) (first last : Nat) (range : ByteRange) :
    table.innermost? first last range =
      ((table.idsWhere fun scope => scope.containsLines first last).filter fun id =>
        table.containsBytes id range).getLast?.or
      (table.idsWhere fun scope => scope.containsLines first last).getLast? := by
  rw [innermost?, ← List.head?_filter, List.filter_reverse, List.head?_reverse]
  split
  · next hsome => rw [hsome, Option.some_or]
  · next hnone => rw [hnone, Option.none_or]

theorem mem_idsWhere_containsLines_iff :
    (id ∈ table.idsWhere fun scope => scope.containsLines first last) ↔
      table.containsLines id first last = true := by
  rw [mem_idsWhere_iff, containsLines_eq_true_iff]

/-- Where no scope holds the bytes, the last on the lines is found. -/
theorem innermost?_eq_some_iff_of_not_containsBytes
    (hnone : ∀ id, table.containsBytes id range = false) :
    table.innermost? first last range = some id ↔
      IsLast (fun id => table.containsLines id first last = true) id := by
  have hfilter : (table.idsWhere fun scope => scope.containsLines first last).filter
      (fun id => table.containsBytes id range) = [] :=
    List.filter_eq_nil_iff.mpr fun id _ => by rw [hnone id]; exact Bool.false_ne_true
  rw [innermost?_eq, hfilter, List.getLast?_nil, Option.none_or,
    getLast?_eq_some_iff_isLast (table.pairwise_idsWhere _)]
  simp only [IsLast, mem_idsWhere_containsLines_iff]

/-- Only where there is no scope on the lines is none found. -/
theorem innermost?_eq_none_iff : table.innermost? first last range = none ↔
    ∀ id, table.containsLines id first last = false := by
  rw [innermost?_eq, Option.or_eq_none_iff, List.getLast?_eq_none_iff, List.getLast?_eq_none_iff]
  constructor
  · rintro ⟨-, hnil⟩ id
    rw [← Bool.not_eq_true, ← mem_idsWhere_containsLines_iff, hnil]
    exact List.not_mem_nil
  · intro hnone
    have hnil : (table.idsWhere fun scope => scope.containsLines first last) = [] := by
      rw [List.eq_nil_iff_forall_not_mem]
      intro id hid
      rw [mem_idsWhere_containsLines_iff, hnone id] at hid
      cases hid
    exact ⟨by rw [hnil]; rfl, hnil⟩

end ScopeTable

/-! ## Scopes that hold some bytes -/

/-- A scope is innermost around some bytes if the scopes that hold them are this one and its
ancestors. Its qualified name then lists the names of all of these, outermost first. -/
structure ScopeTable.IsInnermost (table : ScopeTable) (range : ByteRange) (id : Nat) : Prop where
  containsBytes : table.containsBytes id range = true
  containsBytes_iff : ∀ other, table.containsBytes other range = true ↔
    ReflTransGen table.IsParent other id
  qualifiedName_eq : table.qualifiedName id = String.intercalate "::"
    ((table.scopes.filter fun scope => scope.containsBytes range).map (·.name))

namespace Laminar

section Bytes

variable (h : Laminar table source sites)
include h

theorem containsBytes_iff : table.containsBytes id range = true ↔
    ∃ site, sites[id]? = some site ∧ site.label.range.contains range = true := by
  rw [ScopeTable.containsBytes_eq_true_iff]
  constructor
  · rintro ⟨_, hscope, hcontains⟩
    obtain ⟨site, hsite, rfl⟩ := h.exists_site hscope
    exact ⟨site, hsite, hcontains⟩
  · rintro ⟨site, hsite, hcontains⟩
    exact ⟨_, h.get?_of_site hsite, hcontains⟩

variable (hfull : range.start < range.stop)
  (hlast : IsLast (fun id => table.containsBytes id range = true) id)
  (hsite : sites[id]? = some site)
include hfull hlast hsite

/-- The sites that hold the bytes are at the prefixes of the last of them. -/
theorem contains_iff_prefix (hother : other ∈ sites) :
    other.label.range.contains range = true ↔ other.path <+: site.path := by
  have hmem : site ∈ sites := List.mem_of_getElem? hsite
  obtain ⟨found, hfound, hholds⟩ := h.containsBytes_iff.mp hlast.1
  obtain rfl := Option.some.inj (hsite.symm.trans hfound)
  constructor
  · intro hcontains
    obtain ⟨index, hindex⟩ := List.getElem?_of_mem hother
    have hle : index ≤ id := hlast.2 index (h.containsBytes_iff.mpr ⟨other, hindex, hcontains⟩)
    rcases h.comparable other hother site hmem range.start
      (ByteRange.holds_start hcontains hfull) (ByteRange.holds_start hholds hfull) with
      hbegins | hbegins
    · exact hbegins
    · -- What is further inside comes later, and nothing later holds the bytes.
      rcases Nat.lt_or_eq_of_le hle with hlt | rfl
      · exact absurd hbegins (not_prefix_of_lt (path_lt_of_getElem? h.sorted hindex hsite hlt))
      · obtain rfl := Option.some.inj (hsite.symm.trans hindex)
        exact List.prefix_rfl
  · intro hbegins
    exact ByteRange.contains_trans (h.contains other hother site hmem hbegins) hholds

/-- The qualified name of the last is made of the names of all scopes that hold the bytes. -/
theorem qualifiedName_of_isLast : table.qualifiedName id = String.intercalate "::"
    ((table.scopes.filter fun scope => scope.containsBytes range).map (·.name)) := by
  have hsize : id < table.size := by
    rw [ScopeTable.size, h.scopes_eq, List.length_map]
    exact (List.getElem?_eq_some_iff.mp hsite).1
  rw [ScopeTable.qualifiedName,
    namesUp_eq h.sorted h.scopes_eq id site hsite table.size [] hsize, List.append_nil,
    h.scopes_eq, List.filter_map, List.map_map]
  congr 1
  -- The names up the links are those at the prefixes of the path.
  have hfilter : sites.filter (fun other => other.path <+: site.path) =
      sites.filter fun other => other.label.range.contains range := by
    refine List.filter_congr fun other hother => ?_
    rw [Bool.eq_iff_iff, decide_eq_true_eq]
    exact (h.contains_iff_prefix hfull hlast hsite hother).symm
  rw [hfilter]
  rfl

omit hsite in
/-- The last scope that holds the bytes is innermost around them. -/
theorem isInnermost_of_isLast : table.IsInnermost range id := by
  obtain ⟨site, hsite, -⟩ := h.containsBytes_iff.mp hlast.1
  refine ⟨hlast.1, fun index => ?_, h.qualifiedName_of_isLast hfull hlast hsite⟩
  rw [h.containsBytes_iff, h.reflTransGen_isParent_iff hsite]
  refine exists_congr fun other => and_congr_right fun hother => ?_
  exact h.contains_iff_prefix hfull hlast hsite (List.mem_of_getElem? hother)

end Bytes

variable (h : Laminar table (Source.ofChars chars) sites) (hfull : range.start < range.stop)
  (hfirst : (Source.ofChars chars).lineOfOffset range.start = .ok first)
  (hlast : (Source.ofChars chars).lineOfOffset (range.stop - 1) = .ok last)
include h hfull hfirst hlast

/-- A scope that holds the bytes is on their lines. -/
theorem containsLines_of_containsBytes (hcontains : table.containsBytes id range = true) :
    table.containsLines id first last = true := by
  obtain ⟨site, hsite, hholds⟩ := h.containsBytes_iff.mp hcontains
  obtain rfl := Source.eq_row_of_lineOfOffset_eq_ok hfirst
  obtain rfl := Source.eq_row_of_lineOfOffset_eq_ok hlast
  exact ScopeTable.containsLines_eq_true_iff.mpr
    ⟨_, h.get?_of_site hsite, Site.containsLines_of_contains hfull hholds _⟩

/-- Where some scope holds the bytes, the innermost around them is found. -/
theorem exists_innermost? {found : Nat} (hfound : table.containsBytes found range = true) :
    ∃ id, table.innermost? first last range = some id ∧ table.IsInnermost range id := by
  -- The lines leave out no scope that holds the bytes.
  have hmem : ∀ id, id ∈ (table.idsWhere fun scope => scope.containsLines first last).filter
      (fun id => table.containsBytes id range) ↔ table.containsBytes id range = true := by
    intro id
    rw [List.mem_filter, ScopeTable.mem_idsWhere_containsLines_iff, and_iff_right_iff_imp]
    exact h.containsLines_of_containsBytes hfull hfirst hlast
  obtain ⟨id, hid, hisLast⟩ := exists_isLast_of_mem ((table.pairwise_idsWhere _).filter _)
    ((hmem found).mpr hfound)
  refine ⟨id, ?_, ?_⟩
  · rw [ScopeTable.innermost?_eq, hid, Option.some_or]
  · apply h.isInnermost_of_isLast hfull
    simpa only [IsLast, hmem] using hisLast

end Laminar

/-! ## Tags of occurrences -/

section Tags

variable {contextLines : Nat} {search : String} {within : Option (List Nat)}
variable {occurrence : Occurrence} {occurrences : List Occurrence}

/-- An occurrence in the bytes of some scope is tagged with the innermost around its bytes. -/
theorem Laminar.exists_tag (h : Laminar table (Source.ofChars chars) sites)
    (hfound : findOccurrences (Source.ofChars chars) table contextLines search within =
      .ok occurrences) (hmem : occurrence ∈ occurrences)
    (hsome : ∃ id, table.containsBytes id occurrence.range = true) :
    ∃ id, occurrence.scope = some id ∧
      occurrence.enclosingScope = some (table.qualifiedName id) ∧
      table.IsInnermost occurrence.range id := by
  obtain ⟨start, hstart, hread⟩ := ((mem_findOccurrences_iff hfound).mp hmem).1
  have hpos := width_pos_of_ne_nil (ne_nil_of_mem_matchOffsets hstart)
  -- What is searched for is not empty.
  have hfull : occurrence.range.start < occurrence.range.stop := by
    rw [hread.range_eq]
    exact Nat.lt_add_of_pos_right hpos
  obtain ⟨found, hholds⟩ := hsome
  obtain ⟨id, hid, hinnermost⟩ := h.exists_innermost? hfull
    (hread.range_eq ▸ hread.line_eq) (hread.range_eq ▸ hread.endLine_eq) hholds
  rw [hread.range_eq, ← hread.scope_eq] at hid
  exact ⟨id, hid, by rw [hread.enclosingScope_eq, hid]; rfl, hinnermost⟩

end Tags

/-! ## The table of a tree -/

/-- In the table of a tree with nested nodes and separate siblings, what is found for some bytes and
their lines is the innermost scope around the bytes, if any scope holds them; else it is the last
scope on the lines, if any. An occurrence in the bytes of some scope is tagged with the innermost
one, and with the names of all scopes that hold it. -/
theorem innermost_scope_exact (language : Language) (text : String) (tree : ParseTree)
    (hnested : tree.Nested) (hapart : tree.SiblingsApart) :
    (∀ (range : ByteRange) (first last : Nat), range.start < range.stop →
      (Source.ofString text).lineOfOffset range.start = .ok first →
      (Source.ofString text).lineOfOffset (range.stop - 1) = .ok last →
      ((∃ id, (tree.scopeTable language text).containsBytes id range = true) →
        ∃ id, (tree.scopeTable language text).innermost? first last range = some id ∧
          (tree.scopeTable language text).IsInnermost range id) ∧
      ((∀ id, (tree.scopeTable language text).containsBytes id range = false) →
        (∀ id, (tree.scopeTable language text).innermost? first last range = some id ↔
          IsLast (fun id =>
            (tree.scopeTable language text).containsLines id first last = true) id) ∧
        ((tree.scopeTable language text).innermost? first last range = none ↔
          ∀ id, (tree.scopeTable language text).containsLines id first last = false))) ∧
    ∀ (contextLines : Nat) (search : String) (within : Option (List Nat))
      (occurrences : List Occurrence),
      findOccurrences (Source.ofString text) (tree.scopeTable language text) contextLines search
        within = .ok occurrences →
      ∀ occurrence ∈ occurrences,
        (∃ id, (tree.scopeTable language text).containsBytes id occurrence.range = true) →
        ∃ id, occurrence.scope = some id ∧
          occurrence.enclosingScope = some ((tree.scopeTable language text).qualifiedName id) ∧
          (tree.scopeTable language text).IsInnermost occurrence.range id := by
  have hlaminar := laminar_scopeTable language text hnested hapart
  refine ⟨fun range first last hfull hfirst hlast => ⟨?_, fun hnone => ⟨fun id => ?_, ?_⟩⟩, ?_⟩
  · rintro ⟨found, hfound⟩
    exact hlaminar.exists_innermost? hfull hfirst hlast hfound
  · exact ScopeTable.innermost?_eq_some_iff_of_not_containsBytes hnone
  · exact ScopeTable.innermost?_eq_none_iff
  · intro contextLines search within occurrences hfound occurrence hmem hsome
    exact hlaminar.exists_tag hfound hmem hsome

/-- The last word of the text of two classes is in the method of the second. -/
theorem twinTree_innermost : twinTree.Nested ∧ twinTree.SiblingsApart ∧
    (Source.ofString twinText).lineOfOffset 65 = .ok 6 ∧
    (Source.ofString twinText).lineOfOffset 68 = .ok 6 ∧
    (twinTree.scopeTable .python twinText).containsBytes 0 ⟨65, 69⟩ = false ∧
    (twinTree.scopeTable .python twinText).innermost? 6 6 ⟨65, 69⟩ = some 3 ∧
    (twinTree.scopeTable .python twinText).IsInnermost ⟨65, 69⟩ 3 := by
  have hline : (Source.ofString twinText).lineOfOffset 65 = .ok 6 := by decide +kernel
  have hendLine : (Source.ofString twinText).lineOfOffset 68 = .ok 6 := by decide +kernel
  have hfound : (twinTree.scopeTable .python twinText).innermost? 6 6 ⟨65, 69⟩ = some 3 := by
    decide +kernel
  have hholds : (twinTree.scopeTable .python twinText).containsBytes 2 ⟨65, 69⟩ = true := by
    decide +kernel
  obtain ⟨hbytes, -⟩ :=
    innermost_scope_exact .python twinText twinTree twinTree_nested twinTree_siblingsApart
  obtain ⟨hsome, -⟩ := hbytes ⟨65, 69⟩ 6 6 (by decide) hline hendLine
  obtain ⟨id, hid, hinnermost⟩ := hsome ⟨2, hholds⟩
  obtain rfl := Option.some.inj (hfound.symm.trans hid)
  exact ⟨twinTree_nested, twinTree_siblingsApart, hline, hendLine, by decide +kernel, hfound,
    hinnermost⟩

example : (twinTree.scopeTable .python twinText).qualifiedName 3 = "B::f" := by decide +kernel

end ExactEdit
