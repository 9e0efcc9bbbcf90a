import ExactEdit.Proofs.Syntax.Subtree
import ExactEdit.Syntax.Diagnostic
import Mathlib.Data.List.Sort

/-! # Outermost faults

A fault is an error node or a missing node. Of the faults of a tree those count that are below no
other. The search for diagnostics goes through the tree with a list of what it still has to look at,
stops when it has said enough, and passes over every tree that the parser flags as free of faults.
If the flags tell the truth, none of this loses a fault or changes the order.

## Main definitions

* `Node.IsFault`, `ParseTree.HasFault` — a node is an error or missing, and a tree holds such a node
* `Place.IsOutermostFault` — a fault that is below no other
* `ParseTree.FlagsFaults` — the flags of a tree tell where its faults are
* `ParseTree.faults` — the outermost faults of a tree, by recursion

## Main results

* `ParseTree.map_label_filter_places` — the places of outermost faults hold what the recursion finds
* `collectDiagnostics_eq` — the search reports what the recursion finds, up to its limit
* `diagnostics_outermost_faults` — the first five outermost faults are reported, in order
-/

namespace ExactEdit

open ParseTree

variable {tree : ParseTree} {forest children : List ParseTree} {label : Node} {above : List Node}
variable {report? : Node → Option String} {step room : Nat} {snippet : List Char}

/-! ## Faults -/

/-- Whether a node is missing or an error. -/
def Node.IsFault (node : Node) : Prop := node.isMissing = true ∨ node.isError = true

instance : DecidablePred Node.IsFault :=
  fun node => inferInstanceAs (Decidable (node.isMissing = true ∨ node.isError = true))

/-- Whether the node at a place is a fault and no node above it is one. -/
def Place.IsOutermostFault (place : Place) : Prop :=
  place.tree.label.IsFault ∧ ∀ node ∈ place.above, ¬ node.IsFault

instance : DecidablePred Place.IsOutermostFault :=
  fun place => inferInstanceAs (Decidable (_ ∧ ∀ node ∈ place.above, ¬ node.IsFault))

namespace ParseTree

/-- Whether some node of a tree is a fault. -/
def HasFault (tree : ParseTree) : Prop := ∃ found, tree.Holds found ∧ found.label.IsFault

instance : DecidablePred HasFault :=
  fun tree => inferInstanceAs (Decidable (∃ found, tree.Holds found ∧ found.label.IsFault))

/-- Whether every node of a tree is flagged if it, or a node below it, is a fault, and no other node
is. -/
def FlagsFaults (tree : ParseTree) : Prop :=
  ∀ found, tree.Holds found → (found.label.hasError = true ↔ found.HasFault)

instance : DecidablePred FlagsFaults :=
  fun tree => inferInstanceAs (Decidable (∀ found, tree.Holds found → _))

theorem hasFault_node_iff :
    (ParseTree.node label children).HasFault ↔
      label.IsFault ∨ ∃ child ∈ children, child.HasFault := by
  constructor
  · rintro ⟨found, hfound, hfault⟩
    rcases holds_iff.mp hfound with rfl | ⟨child, hchild, hbelow⟩
    · exact .inl hfault
    · exact .inr ⟨child, hchild, found, hbelow, hfault⟩
  · rintro (hfault | ⟨child, hchild, found, hfound, hfault⟩)
    · exact ⟨.node label children, holds_self _, hfault⟩
    · exact ⟨found, .of_child hchild hfound, hfault⟩

theorem flagsFaults_node_iff :
    (ParseTree.node label children).FlagsFaults ↔
      (label.hasError = true ↔ (ParseTree.node label children).HasFault) ∧
        ∀ child ∈ children, child.FlagsFaults :=
  forall_holds_node_iff

/-! ## The outermost faults by recursion -/

mutual

/-- The outermost faults of a tree: its root, or those of the trees below. -/
def faults : ParseTree → List Node
  | .node label children => if label.IsFault then [label] else faultsBelow children

/-- The outermost faults of some trees. -/
def faultsBelow : List ParseTree → List Node
  | [] => []
  | tree :: rest => tree.faults ++ faultsBelow rest

end

theorem faultsBelow_append (front back : List ParseTree) :
    faultsBelow (front ++ back) = faultsBelow front ++ faultsBelow back := by
  induction front with
  | nil => rfl
  | cons tree rest ih => rw [List.cons_append, faultsBelow, ih, faultsBelow, List.append_assoc]

theorem faultsBelow_eq_nil_iff : faultsBelow forest = [] ↔ ∀ tree ∈ forest, tree.faults = [] := by
  induction forest with
  | nil => simp [faultsBelow]
  | cons tree rest ih => rw [faultsBelow, List.append_eq_nil_iff, ih, List.forall_mem_cons]

/-- A tree with a fault has an outermost one. -/
theorem faults_eq_nil_iff (tree : ParseTree) : tree.faults = [] ↔ ¬ tree.HasFault := by
  induction tree using ParseTree.induction with
  | node label children ih =>
    rw [faults, hasFault_node_iff]
    by_cases hfault : label.IsFault
    · simp [hfault]
    · rw [if_neg hfault, faultsBelow_eq_nil_iff, forall₂_congr ih]
      simp [hfault]

/-! ## The places of outermost faults -/

theorem map_label_filter_placesBelow
    (h : ∀ tree ∈ forest,
      ((places above tree).filter (·.IsOutermostFault)).map (·.tree.label) = tree.faults) :
    ((placesBelow above step forest).filter (·.IsOutermostFault)).map (·.tree.label) =
      faultsBelow forest := by
  induction forest generalizing step with
  | nil => rfl
  | cons tree rest ih =>
    rw [List.forall_mem_cons] at h
    rw [placesBelow, faultsBelow, List.filter_append, List.map_append, ih h.2, ← h.1,
      List.filter_map, List.map_map]
    rfl

/-- Below nodes that are no faults, the places of the outermost faults of a tree hold what the
recursion finds. -/
theorem map_label_filter_places (tree : ParseTree) : ∀ above : List Node,
    (∀ node ∈ above, ¬ node.IsFault) →
    ((places above tree).filter (·.IsOutermostFault)).map (·.tree.label) = tree.faults := by
  induction tree using ParseTree.induction with
  | node label children ih =>
    intro above habove
    rw [places, faults]
    by_cases hfault : label.IsFault
    · -- What is below the root is below a fault.
      have hbelow : ∀ place ∈ placesBelow (label :: above) 0 children,
          ¬ place.IsOutermostFault := by
        intro place hplace houtermost
        obtain ⟨index, child, -, below, hbelow, rfl⟩ := mem_placesBelow_iff.mp hplace
        have hsuffix : label :: above <:+ below.above :=
          suffix_of_follow? ((mem_places_iff child _ below).mp hbelow)
        exact houtermost.2 label (hsuffix.subset List.mem_cons_self) hfault
      have hroot : (⟨[], above, .node label children⟩ : Place).IsOutermostFault := ⟨hfault, habove⟩
      rw [if_pos hfault, List.filter_cons_of_pos (by simpa using hroot),
        List.filter_eq_nil_iff.mpr (by simpa using hbelow)]
      rfl
    · have hroot : ¬ (⟨[], above, .node label children⟩ : Place).IsOutermostFault :=
        fun houtermost => hfault houtermost.1
      rw [if_neg hfault, List.filter_cons_of_neg (by simpa using hroot)]
      refine map_label_filter_placesBelow fun child hchild => ?_
      exact ih child hchild (label :: above) (List.forall_mem_cons.mpr ⟨hfault, habove⟩)

end ParseTree

/-! ## The search -/

/-- A search that has something to say of faults and of nothing else says it of the outermost ones,
as long as there is room. The induction is on the trees that are still to be looked at. -/
theorem collectDiagnostics_eq (hreport : ∀ node, report? node = none ↔ ¬ node.IsFault) :
    (∀ tree ∈ forest, tree.FlagsFaults) →
    (collectDiagnostics report? room forest).map some =
      ((faultsBelow forest).take room).map report? := by
  induction room, forest using collectDiagnostics.induct report? with
  | case1 room =>
    intro _
    simp [collectDiagnostics, faultsBelow]
  | case2 label children rest =>
    intro _
    simp [collectDiagnostics]
  | case3 label children rest more said hsaid ih =>
    intro hflags
    rw [List.forall_mem_cons] at hflags
    have hfault : label.IsFault := by
      by_contra hfault
      rw [(hreport label).mpr hfault] at hsaid
      cases hsaid
    rw [collectDiagnostics, hsaid, faultsBelow, faults, if_pos hfault]
    simp [ih hflags.2, hsaid]
  | case4 label children rest more hnone herror ih =>
    -- The children are looked at before what is behind their parent, so the order is kept.
    intro hflags
    rw [List.forall_mem_cons, flagsFaults_node_iff] at hflags
    rw [collectDiagnostics, hnone, if_pos herror, faultsBelow, faults,
      if_neg ((hreport label).mp hnone), ← faultsBelow_append]
    exact ih (List.forall_mem_append.mpr ⟨hflags.1.2, hflags.2⟩)
  | case5 label children rest more hnone herror ih =>
    -- A tree that is not flagged has no fault.
    intro hflags
    rw [List.forall_mem_cons, flagsFaults_node_iff] at hflags
    have hfaults : (ParseTree.node label children).faults = [] :=
      (faults_eq_nil_iff _).mpr fun hfault => herror (hflags.1.1.mpr hfault)
    rw [collectDiagnostics, hnone, if_neg herror, faultsBelow, hfaults, List.nil_append]
    exact ih hflags.2

theorem diagnostic?_eq_none_iff {index : LineIndex} :
    diagnostic? snippet index label = none ↔ ¬ label.IsFault := by
  rw [diagnostic?, Node.IsFault]
  cases label.isMissing with
  | true => simp
  | false =>
    cases label.isError with
    | true => simp
    | false => simp

/-- Where the flags of a tree tell where its faults are, the diagnostics are those of the first five
faults that are below no other, in the order of their paths. Nothing is reported exactly when no
node is a fault. -/
theorem diagnostics_outermost_faults (snippet : List Char) (tree : ParseTree)
    (hflags : tree.FlagsFaults) :
    ∃ places : List Place, places.Pairwise (·.path < ·.path) ∧
      (∀ place, place ∈ places ↔ place.IsIn [] tree ∧ place.IsOutermostFault) ∧
      (diagnostics snippet tree).map some = (places.take 5).map
        (fun place => diagnostic? snippet (LineIndex.ofChars snippet) place.tree.label) ∧
      (diagnostics snippet tree = [] ↔ ¬ tree.HasFault) := by
  have hsearch : (diagnostics snippet tree).map some =
      (tree.faults.take 5).map (diagnostic? snippet (LineIndex.ofChars snippet)) := by
    rw [diagnostics, collectDiagnostics_eq (fun _ => diagnostic?_eq_none_iff)
      (List.forall_mem_singleton.mpr hflags), faultsBelow, faultsBelow, List.append_nil]
    rfl
  refine ⟨(places [] tree).filter (·.IsOutermostFault), ?_, fun place => ?_, ?_, ?_⟩
  · exact (pairwise_places tree []).filter _
  · rw [List.mem_filter, decide_eq_true_eq, mem_places_iff]
  · rw [hsearch, ← map_label_filter_places tree [] nofun, ← List.map_take, List.map_map]
    rfl
  · rw [← List.map_eq_nil_iff, hsearch, List.map_eq_nil_iff, List.take_eq_nil_iff,
      or_iff_right (by decide), faults_eq_nil_iff]

/-- A call that is not closed, and brackets that close nothing. -/
def bracketText : String := "f(\n]]\n]\n]\n]\n]\n"

/-- A tree of that text. What is missing is no named node, and the first bracket on the second line
is a fault below another. -/
def bracketTree : ParseTree :=
  let leaf (kind : String) (isNamed isMissing isError : Bool) (range : ByteRange) :=
    ParseTree.node ⟨kind, isNamed, isMissing, isError, isMissing || isError, range, none⟩ []
  let bracket (start : Nat) := leaf "ERROR" true false true ⟨start, start + 1⟩
  let call := .node ⟨"call", true, false, false, true, ⟨0, 2⟩, none⟩
    [leaf "identifier" true false false ⟨0, 1⟩, leaf "(" false false false ⟨1, 2⟩,
      leaf ")" false true false ⟨2, 2⟩]
  let pair := .node ⟨"ERROR", true, false, true, true, ⟨3, 5⟩, none⟩
    [bracket 3, leaf "]" false false false ⟨4, 5⟩]
  .node ⟨"module", true, false, false, true, ⟨0, 14⟩, none⟩
    [call, pair, bracket 6, bracket 8, bracket 10, bracket 12]

/-- Of the seven faults one is below another, and the last is one too many. -/
theorem bracketTree_reported : bracketTree.FlagsFaults ∧
    diagnostics bracketText.toList bracketTree =
      ["line 1: missing `)`", "line 2: unexpected `]]`", "line 3: unexpected `]`",
        "line 4: unexpected `]`", "line 5: unexpected `]`"] := by
  have hflags : bracketTree.FlagsFaults := by decide +kernel
  obtain ⟨outermost, hsorted, hmem, hreports, -⟩ :=
    diagnostics_outermost_faults bracketText.toList bracketTree hflags
  have hplaces : outermost = (places [] bracketTree).filter (·.IsOutermostFault) := by
    refine hsorted.eq_of_mem_iff ((pairwise_places bracketTree []).filter _) fun place => ?_
    rw [hmem, List.mem_filter, decide_eq_true_eq, mem_places_iff]
  refine ⟨hflags, List.map_injective_iff.mpr (Option.some_injective _) ?_⟩
  rw [hreports, hplaces]
  decide +kernel

end ExactEdit
