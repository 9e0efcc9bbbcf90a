import ExactEdit.Editor.Basic
import ExactEdit.Proofs.Occurrence
import ExactEdit.Proofs.Syntax.Listing

/-! # Lines of scopes

A parser gives the places of its nodes as byte offsets, whatever they are. The rows that are taken
from them count line feeds of the text, so they never lead out of it, and a scope has a first and a
last line of the text, in this order. An edit at an occurrence on these lines keeps everything in
front of the first and behind the terminator of the last.

## Main definitions

* `Scope.HasLines` — the first and the last line of a scope are lines of the text, in order

## Main results

* `hasLines_of_scopesOf_eq_ok` — the scopes of a parse have lines
* `Occurrence.IsAt.exists_splice_eq_of_containsLines` — an edit stays on the lines of a scope
-/

namespace ExactEdit

open Text

variable {chars old before after : List Char} {source : Source} {node : SyntaxNode}
variable {scope : Scope} {occurrence : Occurrence}

/-! ## Rows of nodes -/

/-- A row counts some of the line feeds. -/
theorem LineIndex.row_pointOf_le (index : LineIndex) (offset : Nat) :
    (index.pointOf offset).row ≤ index.feeds.length := by
  simp only [pointOf]
  split
  · exact (List.takeWhile_sublist _).length_le
  · exact Nat.zero_le _

/-- The rows of a node are rows of the text. -/
def SyntaxNode.HasRows (node : SyntaxNode) (source : Source) : Prop :=
  node.start.row ≤ source.index.feeds.length ∧ node.stop.row ≤ source.index.feeds.length

namespace SyntaxTree

variable {rule : List Node → ParseTree → Option Declaration} {tree : SyntaxTree} {parser : Parser}
variable {language : Option Language}

theorem Shows.hasRows {place : Place} (h : Shows source rule node place) :
    node.HasRows source := by
  rw [SyntaxNode.HasRows, h.start_eq, h.stop_eq]
  exact ⟨LineIndex.row_pointOf_le _ _, LineIndex.row_pointOf_le _ _⟩

/-- The nodes of a parse have rows of the text. -/
theorem of_parse_eq_ok (h : parse parser language source = .ok tree) :
    tree.source = source ∧ ∀ node ∈ tree.nodes, node.HasRows source := by
  rw [parse.eq_def] at h
  split at h
  · obtain rfl := Except.ok.inj h
    refine ⟨rfl, fun node hnode => ?_⟩
    obtain rfl := List.mem_singleton.mp hnode
    exact ⟨Nat.zero_le _, LineIndex.row_pointOf_le _ _⟩
  · obtain ⟨parsed, -, h⟩ := Result.bind_eq_ok_iff.mp h
    dsimp only at h
    split at h
    · cases h
    · obtain rfl := Except.ok.inj h
      refine ⟨rfl, fun node hnode => ?_⟩
      obtain ⟨place, -, hshows⟩ := exists_place_of_mem_listTree hnode
      exact hshows.hasRows

end SyntaxTree

/-! ## Lines of scopes -/

/-- The first and the last line of a scope are lines of the text, in this order. -/
structure Scope.HasLines (scope : Scope) (source : Source) : Prop where
  startLine_pos : 1 ≤ scope.startLine
  startLine_le_endLine : scope.startLine ≤ scope.endLine
  endLine_le : scope.endLine ≤ source.index.feeds.length + 1

theorem SyntaxNode.HasRows.hasLines_ofNode (h : node.HasRows source) (declared : Declaration)
    (parent : Option Nat) : (Scope.ofNode source node declared parent).HasLines source := by
  have hend : (Scope.lineEnd source node).1 ≤ source.index.feeds.length + 1 := by
    have := h.2
    rw [Scope.lineEnd]
    split
    · simp only
      omega
    · simp only
      omega
  have hstart := h.1
  refine ⟨Nat.succ_pos _, Nat.le_max_right _ _, ?_⟩
  simp only [Scope.ofNode]
  omega

namespace ScopeTable

/-- Passing a node adds at most the scope that it declares. -/
theorem Building.mem_found_pass {building : Building}
    (h : scope ∈ (building.pass source node).found) :
    scope ∈ building.found ∨
      ∃ declared parent, scope = Scope.ofNode source node declared parent := by
  rw [pass] at h
  split at h
  · rcases List.mem_cons.mp h with rfl | hbefore
    · exact .inr ⟨_, _, rfl⟩
    · exact .inl hbefore
  · exact .inl h

/-- Passing nodes adds only scopes that they declare. -/
theorem Building.mem_found_foldl_pass {nodes : List SyntaxNode} {building : Building}
    (h : scope ∈ (nodes.foldl (pass source) building).found) :
    scope ∈ building.found ∨
      ∃ node ∈ nodes, ∃ declared parent, scope = Scope.ofNode source node declared parent := by
  induction nodes generalizing building with
  | nil => exact .inl h
  | cons node rest ih =>
    rcases ih h with hfound | ⟨other, hother, hdeclared⟩
    · exact (mem_found_pass hfound).imp_right fun hdeclared => ⟨node, List.mem_cons_self, hdeclared⟩
    · exact .inr ⟨other, List.mem_cons_of_mem _ hother, hdeclared⟩

/-- Every scope of a table was declared by a node. -/
theorem exists_of_mem_ofTree {tree : SyntaxTree} (h : scope ∈ (ofTree tree).scopes) :
    ∃ node ∈ tree.nodes, ∃ declared parent,
      scope = Scope.ofNode tree.source node declared parent :=
  (Building.mem_found_foldl_pass (List.mem_reverse.mp h)).resolve_left List.not_mem_nil

end ScopeTable

/-- The scopes that a parser finds in a text have lines of the text. -/
theorem hasLines_of_scopesOf_eq_ok {parser : Parser} {language : Option Language}
    {table : ScopeTable} (h : Editor.scopesOf parser language source = .ok table)
    (hmem : scope ∈ table.scopes) : scope.HasLines source := by
  rw [Editor.scopesOf] at h
  split at h
  · next tree htree =>
    obtain rfl := Except.ok.inj h
    obtain ⟨hsource, hrows⟩ := SyntaxTree.of_parse_eq_ok htree
    obtain ⟨node, hnode, declared, parent, rfl⟩ := ScopeTable.exists_of_mem_ofTree hmem
    rw [hsource]
    exact (hrows node hnode).hasLines_ofNode declared parent
  · cases h

/-! ## Edits in a scope -/

/-- An occurrence stops by the end of every line that its last character is not behind. -/
theorem Occurrence.IsAt.stop_le_of_endLine_le {front back : List Char} {number : Nat}
    (hat : occurrence.IsAt old chars before after) (hne : old ≠ []) (hcut : chars = front ++ back)
    (hends : IsLineStart (number + 1) front ∨ back = []) (hle : occurrence.endLine ≤ number) :
    occurrence.range.stop ≤ width front := by
  rcases hends with hnext | rfl
  · obtain ⟨init, c, rfl⟩ := (List.eq_nil_or_concat' old).resolve_left hne
    have hlast : front ++ back = (before ++ init) ++ c :: after := by
      rw [← hcut, hat.text]
      simp
    have hend := hat.endLine
    rw [List.dropLast_concat] at hend
    have hwidth := hnext.add_size_le hlast (by omega)
    rw [hat.range]
    simp only [width_append, width_cons, width_nil] at hwidth ⊢
    omega
  · rw [List.append_nil] at hcut
    rw [← hcut]
    exact hat.sliceable.stop_le_width

/-- An edit at an occurrence on the lines of a scope keeps the text in front of the first of them
and behind the terminator of the last. -/
theorem Occurrence.IsAt.exists_splice_eq_of_containsLines
    (hat : occurrence.IsAt old chars before after) (hne : old ≠ []) (new : List Char)
    (hlines : scope.HasLines (Source.ofChars chars))
    (hcontains : scope.containsLines occurrence.line occurrence.endLine = true) :
    ∃ start stop middle,
      (LineIndex.ofChars chars).startOfLine? scope.startLine = some start ∧
      (LineIndex.ofChars chars).endWithTerminator? scope.endLine = some stop ∧
      splice occurrence.range new chars =
        takeBytes start chars ++ (middle ++ dropBytes stop chars) := by
  have hchars : chars ≠ [] := by
    rw [hat.text]
    simp [hne]
  have hfeeds : (LineIndex.ofChars chars).feeds.length = chars.count '\n' := by
    rw [LineIndex.feeds_ofChars, LineIndex.length_feedsFrom]
  have hstartPos := hlines.startLine_pos
  have horder := hlines.startLine_le_endLine
  have hendLe := hlines.endLine_le
  rw [Source.index_ofChars, hfeeds] at hendLe
  rw [Scope.containsLines, Bool.and_eq_true, decide_eq_true_eq, decide_eq_true_eq] at hcontains
  -- The text is cut at the start of the first line and at the end of the last.
  obtain ⟨front, body, back, hblock⟩ :=
    exists_isBlock hchars hstartPos (Nat.le_refl _) (Nat.le_trans horder hendLe)
  obtain ⟨inside, tail, hinside, hterminator, hends⟩ :=
    exists_endWithTerminator hchars (Nat.le_trans hstartPos horder) hendLe
  have hstart : width front ≤ occurrence.range.start := by
    rw [hat.range]
    exact hblock.start_le hat.text (by rw [← hat.line]; exact hcontains.1)
  have hstop : occurrence.range.stop ≤ width inside :=
    hat.stop_le_of_endLine_le hne hinside hends hcontains.2
  obtain ⟨middle, hmiddle⟩ := hat.sliceable.exists_splice_eq new hblock.text hstart hinside hstop
  refine ⟨width front, width inside, middle, hblock.startOfLine?_eq, hterminator, ?_⟩
  have hfront : takeBytes (width front) chars = front := by
    rw [hblock.text, takeBytes_append]
  have htail : dropBytes (width inside) chars = tail := by
    rw [hinside, dropBytes_append]
  rw [hmiddle, hfront, htail]

end ExactEdit
