import ExactEdit.Proofs.Scope.Site
import ExactEdit.Scope.Table

/-! # A scope table mirrors its tree

A scope table is built in two passes. The first lists the named nodes of a tree with the numbers of
those above them, the second passes along this list and keeps for every node the scope that it
belongs to. All that is left of the tree in the table are the numbers of parents. Here the table is
put beside the sites of the tree: it has a scope for every site, and the parent of a scope is the
nearest site above.

## Main definitions

* `Site.scope`: the scope that a site declares below a parent.
* `placed`: the scopes of some sites, each below its nearest site above.

## Main results

* `ScopeTable.Building.adds_listTree`: the listed nodes of a tree add the scopes of its sites.
* `scopes_ofParse`: a scope table has a scope for every site of its tree.
-/

namespace ExactEdit

open ParseTree

variable {source : Source} {rule : List Node → ParseTree → Option Declaration}
variable {above : List Node} {tree : ParseTree} {forest : List ParseTree} {sites : List Site}
variable {path : List Nat} {step next first : Nat} {owner parent : Option Nat}

/-- The scope that a site declares below a parent. -/
def Site.scope (source : Source) (site : Site) (parent : Option Nat) : Scope :=
  Scope.ofNode source
    { kind := site.label.kind
      declared := some site.declared
      start := source.index.pointOf site.label.range.start
      stop := source.index.pointOf site.label.range.stop
      range := site.label.range
      parent := none
      children := [] }
    site.declared parent

/-- The scopes of some sites, the first of which has the number `next`, inside the scope `owner`. -/
def placed (source : Source) (owner : Option Nat) (next : Nat) (sites : List Site) : List Scope :=
  sites.map fun site =>
    site.scope source (((nearest? sites site.path).map (next + ·)).or owner)

theorem placed_eq (sites : List Site) :
    placed source owner next sites = hung (·.path) (Site.scope source) owner next sites := by
  simp only [placed, nearest?_eq, hung, parentAmong?]

/-- A site at the root is the parent of those below it that have no nearer one. -/
theorem placed_root (label : Node) (declared : Declaration)
    (hbelow : ∀ site ∈ sites, site.path ≠ []) :
    placed source owner next (⟨[], label, declared⟩ :: sites) =
      Site.scope source ⟨[], label, declared⟩ owner ::
        placed source (some next) (next + 1) sites := by
  rw [placed_eq, placed_eq, hung_root rfl hbelow]

/-- Sites below different children have nothing to do with each other. -/
theorem placed_append (hrest : BeginFrom (step + 1) (sites.map (·.path))) (front : List Site) :
    placed source owner next (front.map (Site.under step) ++ sites) =
      placed source owner next front ++ placed source owner (next + front.length) sites := by
  rw [placed_eq, placed_eq, placed_eq]
  exact hung_append (Site.under step) (fun _ => rfl) (fun _ _ => rfl) hrest front

namespace ScopeTable.Building

variable {building : Building} {nodes : List SyntaxNode}

/-- The node with a number was passed, and belongs to a scope. -/
def Owns (building : Building) (parent owner : Option Nat) : Prop :=
  (∀ number ∈ parent, number < building.owners.size) ∧
    (parent.bind fun number => (building.owners[number]?).getD none) = owner

/-- Passing some nodes adds the scopes of some sites, which are inside `owner`. -/
def Adds (source : Source) (building : Building) (owner : Option Nat) (nodes : List SyntaxNode)
    (sites : List Site) : Prop :=
  ∃ owners, nodes.foldl (pass source) building =
      ⟨(placed source owner building.count sites).reverse ++ building.found,
        building.count + sites.length, building.owners ++ owners⟩ ∧
    owners.size = nodes.length

theorem Owns.append (h : building.Owns parent owner) (found : List Scope) (count : Nat)
    (owners : Array (Option Nat)) :
    Owns ⟨found, count, building.owners ++ owners⟩ parent owner := by
  refine ⟨fun number hnumber => ?_, ?_⟩
  · have := h.1 number hnumber
    rw [Array.size_append]
    omega
  · rw [← h.2]
    cases parent with
    | none => rfl
    | some number =>
      simp only [Option.bind_some]
      rw [Array.getElem?_append_left (h.1 number rfl)]

/-- A node that was passed owns what is below it. -/
theorem owns_push (found : List Scope) (count : Nat) (here : Option Nat)
    (hfirst : building.owners.size = first) :
    Owns ⟨found, count, building.owners.push here⟩ (some first) here := by
  subst hfirst
  refine ⟨fun number hnumber => ?_, ?_⟩
  · obtain rfl := Option.some.inj hnumber
    rw [Array.size_push]
    exact Nat.lt_succ_self _
  · simp

/-- A node that declares no scope adds what the nodes below it add. -/
theorem adds_cons_of_none {node : SyntaxNode} (hdeclared : node.declared = none)
    (howns : building.Owns node.parent owner)
    (hbelow : Adds source { building with owners := building.owners.push owner } owner nodes
      sites) :
    building.Adds source owner (node :: nodes) sites := by
  obtain ⟨owners, hfold, hsize⟩ := hbelow
  refine ⟨#[owner] ++ owners, ?_, ?_⟩
  · rw [List.foldl_cons, pass, hdeclared, howns.2]
    simpa using hfold
  · rw [Array.size_append, hsize, List.length_cons]
    exact Nat.add_comm 1 _

/-- A node that declares a scope adds that scope, and the nodes below it add theirs inside. -/
theorem adds_cons_of_some {node : SyntaxNode} {label : Node} {declared : Declaration}
    (hdeclared : node.declared = some declared) (howns : building.Owns node.parent owner)
    (hscope : Scope.ofNode source node declared owner =
      Site.scope source ⟨[], label, declared⟩ owner)
    (hsites : ∀ site ∈ sites, site.path ≠ [])
    (hbelow : Adds source ⟨Scope.ofNode source node declared owner :: building.found,
        building.count + 1, building.owners.push (some building.count)⟩
      (some building.count) nodes sites) :
    building.Adds source owner (node :: nodes) (⟨[], label, declared⟩ :: sites) := by
  obtain ⟨owners, hfold, hsize⟩ := hbelow
  refine ⟨#[some building.count] ++ owners, ?_, ?_⟩
  · rw [List.foldl_cons, pass, hdeclared, howns.2, placed_root label declared hsites]
    simpa [hscope, Nat.add_assoc, Nat.add_comm 1] using hfold
  · rw [Array.size_append, hsize, List.length_cons]
    exact Nat.add_comm 1 _

/-- What the nodes of neighbouring trees add is what the nodes of each of them add. -/
theorem adds_listForest
    (h : ∀ tree ∈ forest, ∀ (building : Building) (first : Nat), building.owners.size = first →
      building.Owns parent owner →
      building.Adds source owner (SyntaxTree.listTree source rule first parent above tree).nodes
        (tree.sites rule above))
    (hfirst : building.owners.size = first) (howns : building.Owns parent owner) :
    building.Adds source owner (SyntaxTree.listForest source rule first parent above forest).nodes
      (sitesBelow rule above step forest) := by
  induction forest generalizing building first step with
  | nil => exact ⟨#[], by simp [placed, SyntaxTree.listForest, sitesBelow], rfl⟩
  | cons tree rest ih =>
    -- The first tree pushes an owner for each of its nodes, so the rest begin behind these; what
    -- was owned before stays where it was.
    rw [List.forall_mem_cons] at h
    obtain ⟨owners, hfold, hsize⟩ := h.1 building first hfirst howns
    obtain ⟨owners', hfold', hsize'⟩ := @ih (step + 1) _ _ h.2
      (by rw [Array.size_append, hfirst, hsize]) (howns.append _ _ owners)
    refine ⟨owners ++ owners', ?_, ?_⟩
    · rw [SyntaxTree.listForest, sitesBelow, List.foldl_append, hfold, hfold', placed_append]
      · simp [Nat.add_assoc]
      · exact List.forall_mem_map.mpr fun site => exists_path_of_mem_sitesBelow
    · rw [Array.size_append, hsize, hsize', SyntaxTree.listForest, List.length_append]

/-- The nodes of a tree add the scopes of its sites. -/
theorem adds_listTree (tree : ParseTree) : ∀ (above : List Node) (parent owner : Option Nat)
    (building : Building) (first : Nat), building.owners.size = first →
    building.Owns parent owner →
    building.Adds source owner (SyntaxTree.listTree source rule first parent above tree).nodes
      (tree.sites rule above) := by
  induction tree using ParseTree.induction with
  | node label children ih =>
    intro above parent owner building first hfirst howns
    -- Parent and owner are left open: a node without a name hands on those above it.
    have hbelow : ∀ (parent owner : Option Nat) (building : Building) (first : Nat),
        building.owners.size = first → building.Owns parent owner →
        building.Adds source owner
          (SyntaxTree.listForest source rule first parent (label :: above) children).nodes
          (sitesBelow rule (label :: above) 0 children) :=
      fun parent owner building first => adds_listForest fun child hchild =>
        ih child hchild (label :: above) parent owner
    rw [SyntaxTree.listTree, ParseTree.sites]
    cases hnamed : label.isNamed with
    | false => exact hbelow parent owner building first hfirst howns
    | true =>
      cases hdeclared : rule above (.node label children) with
      | some declared =>
        refine adds_cons_of_some rfl howns rfl (fun site hsite => ?_) ?_
        · obtain ⟨step, path, hpath, -⟩ := exists_path_of_mem_sitesBelow hsite
          simp [hpath]
        · exact hbelow _ _ _ _ (by rw [Array.size_push, hfirst]) (owns_push _ _ _ hfirst)
      | none =>
        refine adds_cons_of_none rfl howns ?_
        exact hbelow _ _ _ _ (by rw [Array.size_push, hfirst]) (owns_push _ _ _ hfirst)

end ScopeTable.Building

/-- A scope table has a scope for every site of its tree. -/
theorem scopes_ofParse (language : Language) (source : Source) (tree : ParseTree) :
    (ScopeTable.ofTree (SyntaxTree.ofParse language source tree)).scopes =
      (tree.sites (declaration? language source.chars) []).map fun site => site.scope source
        (nearest? (tree.sites (declaration? language source.chars) []) site.path) := by
  have hadds : ScopeTable.Building.Adds source ⟨[], 0, #[]⟩ none
      (SyntaxTree.listTree source (declaration? language source.chars) 0 none [] tree).nodes
      (tree.sites (declaration? language source.chars) []) :=
    ScopeTable.Building.adds_listTree tree [] none none ⟨[], 0, #[]⟩ 0 rfl ⟨nofun, rfl⟩
  obtain ⟨owners, hfold, -⟩ := hadds
  rw [ScopeTable.ofTree, SyntaxTree.ofParse, hfold]
  simp [placed]

end ExactEdit
