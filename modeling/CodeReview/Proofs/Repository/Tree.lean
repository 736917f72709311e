import CodeReview.Proofs.FileSystem.Paths

/-!
# Ordered trees

A tree is ordered if every node's path is that of its folder and one name more, and the names of
siblings go up (`Tree.Ordered`). Then the names of all paths go up along the list of its nodes
(`Tree.Ordered.sorted_nodes`), so no two nodes have a path in common (`Tree.Ordered.nodup_paths`).
-/

namespace CodeReview

open FileSystem

/-- The names in the path of a node. -/
def Node.names (node : Node) : List String := namesIn node.path

namespace Tree

/-! ## Subtrees -/

mutual

/-- The tree and everything below it as trees, depth first. -/
def subtrees : Tree → List Tree
  | node here children => node here children :: subtreesOf children

def subtreesOf : List Tree → List Tree
  | [] => []
  | tree :: trees => subtrees tree ++ subtreesOf trees

end

theorem nodesOf_eq (trees : List Tree) : nodesOf trees = trees.flatMap nodes := by
  induction trees with
  | nil => rfl
  | cons tree trees ih => rw [nodesOf, ih, List.flatMap_cons]

mutual

theorem map_subtrees (tree : Tree) : tree.subtrees.map here = tree.nodes := by
  cases tree with
  | node here children =>
    rw [subtrees, nodes, List.map_cons, map_subtreesOf]
    rfl

theorem map_subtreesOf (trees : List Tree) : (subtreesOf trees).map here = nodesOf trees := by
  cases trees with
  | nil => rfl
  | cons tree trees => rw [subtreesOf, nodesOf, List.map_append, map_subtrees, map_subtreesOf]

end

mutual

theorem map_withParents (tree : Tree) (parent : Option String) :
    (tree.withParents parent).map (·.1) = tree.nodes := by
  cases tree with
  | node here children => rw [withParents, nodes, List.map_cons, map_withParentsOf]

theorem map_withParentsOf (trees : List Tree) (parent : String) :
    (withParentsOf parent trees).map (·.1) = nodesOf trees := by
  cases trees with
  | nil => rfl
  | cons tree trees =>
    rw [withParentsOf, nodesOf, List.map_append, map_withParents, map_withParentsOf]

end

mutual

/-- A node stands in the folder whose path it is listed with. -/
theorem exists_of_mem_withParents {tree : Tree} {parent : Option String} {n : Node}
    {folder : Option String} (h : (n, folder) ∈ tree.withParents parent) :
    (n = tree.here ∧ folder = parent) ∨
      ∃ t ∈ tree.subtrees, folder = some t.here.path ∧ n ∈ t.children.map here := by
  cases tree with
  | node here children =>
    rcases List.mem_cons.1 h with h | h
    · exact .inl (Prod.mk.inj h)
    · right
      rcases exists_of_mem_withParentsOf h with ⟨hmem, rfl⟩ | ⟨t, ht, hfolder⟩
      · exact ⟨node here children, List.mem_cons_self, rfl, hmem⟩
      · exact ⟨t, List.mem_cons_of_mem _ ht, hfolder⟩

theorem exists_of_mem_withParentsOf {trees : List Tree} {parent : String} {n : Node}
    {folder : Option String} (h : (n, folder) ∈ withParentsOf parent trees) :
    (n ∈ trees.map here ∧ folder = some parent) ∨
      ∃ t ∈ subtreesOf trees, folder = some t.here.path ∧ n ∈ t.children.map here := by
  cases trees with
  | nil => exact nomatch h
  | cons tree trees =>
    rcases List.mem_append.1 h with h | h
    · rcases exists_of_mem_withParents h with ⟨rfl, rfl⟩ | ⟨t, ht, hfolder⟩
      · exact .inl ⟨List.mem_cons_self, rfl⟩
      · exact .inr ⟨t, List.mem_append_left _ ht, hfolder⟩
    · rcases exists_of_mem_withParentsOf h with ⟨hmem, rfl⟩ | ⟨t, ht, hfolder⟩
      · exact .inl ⟨List.mem_cons_of_mem _ hmem, rfl⟩
      · exact .inr ⟨t, List.mem_append_right _ ht, hfolder⟩

end

/-! ## Order -/

/-- Every node below the top has the path of its folder and one name more, and the names of siblings go
up. -/
inductive Ordered : Tree → Prop
  | node {here : Node} {children : List Tree}
    (hpath : ∀ child ∈ children, IsName child.here.name ∧
      child.here.path = Path.child here.path child.here.name)
    (hnames : children.Pairwise fun child other => child.here.name < other.here.name)
    (hchildren : ∀ child ∈ children, Ordered child) : Ordered (node here children)

namespace Ordered

variable {tree : Tree}

theorem names_child {here : Node} {child : Node} (hname : IsName child.name)
    (hpath : child.path = Path.child here.path child.name) :
    child.names = here.names ++ [child.name] := by
  rw [Node.names, hpath, namesIn_child hname, Node.names]

theorem isPrefix_names (h : tree.Ordered) : ∀ n ∈ tree.nodes, tree.here.names <+: n.names := by
  induction h with
  | @node here children hpath _ _ ih =>
    intro n hn
    rw [nodes, nodesOf_eq] at hn
    rcases List.mem_cons.1 hn with rfl | hn
    · exact List.prefix_rfl
    · obtain ⟨child, hchild, hn⟩ := List.mem_flatMap.1 hn
      obtain ⟨hname, hpath⟩ := hpath child hchild
      refine List.IsPrefix.trans ?_ (ih child hchild n hn)
      rw [names_child hname hpath]
      exact List.prefix_append _ _

/-- Below a path of names all paths are such. -/
theorem isName_of_mem (h : tree.Ordered) (htop : ∀ name ∈ tree.here.names, IsName name) :
    ∀ n ∈ tree.nodes, ∀ name ∈ n.names, IsName name := by
  induction h with
  | @node here children hpath _ _ ih =>
    intro n hn
    rw [nodes, nodesOf_eq] at hn
    rcases List.mem_cons.1 hn with rfl | hn
    · exact htop
    · obtain ⟨child, hchild, hn⟩ := List.mem_flatMap.1 hn
      obtain ⟨hname, hpath⟩ := hpath child hchild
      refine ih child hchild ?_ n hn
      rw [names_child hname hpath]
      exact List.forall_mem_append.2 ⟨htop, by simpa using hname⟩

/-- The names of the paths go up along the nodes. -/
theorem sorted_nodes (h : tree.Ordered) :
    tree.nodes.Pairwise fun n other => n.names < other.names := by
  induction h with
  | @node here children hpath hnames hchildren ih =>
    have hbelow {child : Tree} (hchild : child ∈ children) {n : Node} (hn : n ∈ child.nodes) :
        ∃ rest, n.names = here.names ++ child.here.name :: rest := by
      obtain ⟨hname, hpath⟩ := hpath child hchild
      obtain ⟨rest, hrest⟩ := (hchildren child hchild).isPrefix_names n hn
      rw [names_child hname hpath, List.append_assoc] at hrest
      exact ⟨rest, hrest.symm⟩
    rw [nodes, nodesOf_eq, List.pairwise_cons, List.pairwise_flatMap]
    refine ⟨fun n hn => ?_, ih, hnames.imp_of_mem fun {child other} hchild hother hless => ?_⟩
    · obtain ⟨child, hchild, hn⟩ := List.mem_flatMap.1 hn
      obtain ⟨rest, hrest⟩ := hbelow hchild hn
      have hless : here.names ++ [] < here.names ++ child.here.name :: rest :=
        List.append_left_lt (List.nil_lt_cons child.here.name rest)
      rwa [List.append_nil, ← hrest] at hless
    · intro n hn n' hn'
      obtain ⟨rest, hrest⟩ := hbelow hchild hn
      obtain ⟨rest', hrest'⟩ := hbelow hother hn'
      rw [hrest, hrest']
      exact List.append_left_lt (List.cons_lt_cons_iff.2 (.inl hless))

theorem nodup_paths (h : tree.Ordered) : (tree.nodes.map (·.path)).Nodup := by
  refine List.pairwise_map.2 (h.sorted_nodes.imp fun hless hsame => ?_)
  rw [Node.names, Node.names, hsame] at hless
  exact List.lt_irrefl _ hless

end Ordered

end Tree

end CodeReview
