import CodeReview.Keyed
import CodeReview.Proofs.Repository.Walk
import Mathlib.Data.List.Permutation

/-!
# The order of a walked tree

A walk lists every folder in the order of its names, so the tree it comes to is ordered
(`Walk.ordered_tree`). `Checkout.wellShaped_of_walk` says what that means for the paths, the index and
the counts of a walked repository.
-/

namespace CodeReview

open FileSystem

/-! ## Walks -/

namespace Walk

variable {fs : FileSystem} {sizeLimit : Int} {root : String} {place : Place} {path : String}
  {es : List (String × Entry)} {entered after : List Place} {trees : List Tree}

/-- What is listed in a folder stands under one of its names, and the names go up. -/
theorem Listed.names (hfs : fs.WellFormed)
    (h : Listed fs sizeLimit root place path (fs.listing place) entered trees after) :
    (∀ t ∈ trees, ∃ entry, (t.here.name, entry) ∈ fs.listing place ∧ IsName t.here.name ∧
      t.here.path = Path.child path t.here.name) ∧
    trees.Pairwise fun t other => t.here.name < other.here.name := by
  constructor
  · intro t ht
    obtain ⟨⟨name, entry⟩, hlisted, hpath⟩ :=
      List.mem_map.1 (h.paths_sublist.subset (List.mem_map_of_mem ht))
    have hsame : t.here.name = name := by
      rw [Node.name, ← hpath, name_child (hfs.isName_of_mem_listing hlisted)]
    rw [hsame]
    exact ⟨entry, hlisted, hfs.isName_of_mem_listing hlisted, hpath.symm⟩
  · have hsorted : ((fs.listing place).map fun listed => Path.child path listed.1).Pairwise
        fun p other => Path.name p < Path.name other := by
      refine List.pairwise_map.2 ((hfs.listing_sorted place).imp_of_mem ?_)
      intro listed other hlisted hother hless
      rwa [name_child (hfs.isName_of_mem_listing hlisted),
        name_child (hfs.isName_of_mem_listing hother)]
    have hpaths := hsorted.sublist h.paths_sublist
    rwa [List.pairwise_map] at hpaths

theorem Listed.ordered (hfs : fs.WellFormed)
    (h : Listed fs sizeLimit root place path es entered trees after) : ∀ t ∈ trees, t.Ordered := by
  induction h with
  | nil => exact fun t ht => nomatch ht
  | skip _ _ ih | known _ _ _ ih => exact ih
  | list _ _ ih =>
    refine List.forall_mem_cons.2 ⟨.node ?_ .nil ?_, ih⟩ <;> exact fun t ht => nomatch ht
  | enter _ _ _ hbelow _ ihbelow ih =>
    obtain ⟨hpaths, hnames⟩ := hbelow.names hfs
    refine List.forall_mem_cons.2 ⟨.node (fun t ht => ?_) hnames ihbelow, ih⟩
    obtain ⟨-, -, hname, hpath⟩ := hpaths t ht
    exact ⟨hname, hpath⟩
  | closed _ _ _ _ ih =>
    refine List.forall_mem_cons.2 ⟨.node ?_ .nil ?_, ih⟩ <;> exact fun t ht => nomatch ht

theorem ListedBelow.names (hfs : fs.WellFormed)
    (h : ListedBelow fs sizeLimit root path entered trees after) :
    (∀ t ∈ trees, ∃ place entry, folderAt? fs (location root path) = some place ∧
      (t.here.name, entry) ∈ fs.listing place ∧ IsName t.here.name ∧
      t.here.path = Path.child path t.here.name) ∧
    trees.Pairwise fun t other => t.here.name < other.here.name := by
  cases hread : folderAt? fs (location root path) with
  | none =>
    obtain ⟨rfl, -⟩ := (listedBelow_iff_of_closed hread).1 h
    exact ⟨(fun t ht => nomatch ht), .nil⟩
  | some place =>
    obtain ⟨hpaths, hnames⟩ := ((listedBelow_iff_of_read hread).1 h).names hfs
    refine ⟨fun t ht => ?_, hnames⟩
    obtain ⟨entry, hentry⟩ := hpaths t ht
    exact ⟨place, entry, rfl, hentry⟩

theorem ListedBelow.ordered (hfs : fs.WellFormed)
    (h : ListedBelow fs sizeLimit root path entered trees after) : ∀ t ∈ trees, t.Ordered := by
  cases hread : folderAt? fs (location root path) with
  | none =>
    obtain ⟨rfl, -⟩ := (listedBelow_iff_of_closed hread).1 h
    exact fun t ht => nomatch ht
  | some place => exact ((listedBelow_iff_of_read hread).1 h).ordered hfs

/-- The tree of a folder is ordered. -/
theorem ordered_tree (hfs : fs.WellFormed) (hplace : fs.entry? place = some .folder) :
    (tree fs place sizeLimit).Ordered := by
  obtain ⟨after, hlisted⟩ := @exists_listedBelow fs sizeLimit place hplace
  obtain ⟨hpaths, hnames⟩ := hlisted.names hfs
  refine .node (fun t ht => ?_) hnames (hlisted.ordered hfs)
  obtain ⟨-, -, -, -, hname, hpath⟩ := hpaths t ht
  exact ⟨hname, hpath⟩

end Walk

/-! ## Walked repositories -/

namespace Checkout

/-- The shape of a walked repository. -/
structure WellShaped (fs : FileSystem) (checkout : Checkout) : Prop where
  /-- Every node has a place among the parents. -/
  parents : (checkout.tree.withParents none).map (·.1) = checkout.tree.nodes
  /-- Every node but the top stands in the folder of its parent, with the path of the folder and the name
  of an entry there. -/
  inFolder {node : Node} {parent : Option String}
    (h : (node, parent) ∈ checkout.tree.withParents none) :
    (node = checkout.tree.here ∧ parent = none) ∨
      ∃ folder ∈ checkout.tree.subtrees, parent = some folder.here.path ∧
        node ∈ folder.children.map Tree.here ∧ node.path = Path.child folder.here.path node.name ∧
        ∃ place entry, Walk.folderAt? fs (Walk.location checkout.root folder.here.path) = some place ∧
          (node.name, entry) ∈ fs.listing place
  /-- The names of siblings go up. -/
  siblings {folder : Tree} (h : folder ∈ checkout.tree.subtrees) :
    folder.children.Pairwise fun t other => t.here.name < other.here.name
  /-- The paths of files go up, name by name. -/
  files : checkout.files.Pairwise fun node other => node.names < other.names
  nodup : (checkout.tree.nodes.map (·.path)).Nodup
  /-- No node takes the place of another in an index by path. -/
  index : Keyed.ofPairs (checkout.tree.nodes.map fun node => (node.path, node)) =
    checkout.index.map fun node => (node.path, node)
  fileCount : checkout.fileCount = checkout.files.length
  count : checkout.fileCount + checkout.folderCount + 1 = checkout.tree.nodes.length

/-- Every node but the top is a file or a folder of the counts. -/
theorem count_of_ordered {root : String} {place : Place} {fs : FileSystem} {sizeLimit : Int}
    (h : (Walk.tree fs place sizeLimit).Ordered) :
    fileCount { root, tree := Walk.tree fs place sizeLimit } +
      folderCount { root, tree := Walk.tree fs place sizeLimit } + 1 =
        (Walk.tree fs place sizeLimit).nodes.length := by
  have hbelow : ∀ node ∈ Tree.nodesOf (Walk.tree fs place sizeLimit).children, node.path ≠ "" := by
    intro node hnode hempty
    have hless := (List.pairwise_cons.1 h.sorted_nodes).1 node hnode
    rw [Node.names, Node.names, hempty] at hless
    exact List.lt_irrefl _ hless
  have hnodes : (Walk.tree fs place sizeLimit).nodes =
      { path := "", isFolder := true } :: Tree.nodesOf (Walk.tree fs place sizeLimit).children := rfl
  rw [fileCount, folderCount, hnodes]
  generalize Tree.nodesOf (Walk.tree fs place sizeLimit).children = nodes at hbelow ⊢
  have hfolders : nodes.countP (fun node => node.isFolder && node.path != "") =
      nodes.countP (·.isFolder) :=
    List.countP_congr fun node hnode => by simp [hbelow node hnode]
  have hsum : nodes.length = nodes.countP (·.isFolder) + nodes.countP (!·.isFolder) := by
    rw [List.length_eq_countP_add_countP (p := Node.isFolder)]
    simp
  have htop : ("" != "") = false := by decide
  simp only [List.countP_cons, List.length_cons, hfolders, hsum, htop, Bool.and_false,
    Bool.not_true, Bool.false_eq_true, if_false]
  omega

/-- A walked repository is well shaped. -/
theorem wellShaped_of_walk {fs : FileSystem} {root : String} {sizeLimit : Int} {checkout : Checkout}
    (hfs : fs.WellFormed) (h : walk fs root sizeLimit = .ok checkout) : checkout.WellShaped fs := by
  obtain ⟨-, -, -, place, hresolve, rfl⟩ := walk_eq_ok_iff.1 h
  have hplace := entry?_of_resolve hresolve
  have hordered := @Walk.ordered_tree fs sizeLimit place hfs hplace
  obtain ⟨after, -, hbelow⟩ := Walk.exists_entered_tree fs sizeLimit hplace
  have hnames : ∀ folder ∈ (Walk.tree fs place sizeLimit).subtrees,
      (∀ t ∈ folder.children, ∃ found entry,
        Walk.folderAt? fs (Walk.location (pathOf place) folder.here.path) = some found ∧
          (t.here.name, entry) ∈ fs.listing found ∧ IsName t.here.name ∧
          t.here.path = Path.child folder.here.path t.here.name) ∧
      folder.children.Pairwise fun t other => t.here.name < other.here.name := by
    intro folder hfolder
    rcases hbelow folder hfolder with ⟨-, hchildren⟩ | ⟨-, before, behind, hlisted, -⟩
    · rw [hchildren]
      exact ⟨(fun t ht => nomatch ht), .nil⟩
    · exact hlisted.names hfs
  constructor
  · exact Tree.map_withParents _ none
  · intro node parent hnode
    refine (Tree.exists_of_mem_withParents hnode).imp id ?_
    rintro ⟨folder, hfolder, rfl, hchild⟩
    obtain ⟨t, ht, rfl⟩ := List.mem_map.1 hchild
    obtain ⟨found, entry, hread, hentry, -, hpath⟩ := (hnames folder hfolder).1 t ht
    exact ⟨folder, hfolder, rfl, hchild, hpath, found, entry, hread, hentry⟩
  · intro folder hfolder
    exact (hnames folder hfolder).2
  · exact hordered.sorted_nodes.sublist List.filter_sublist
  · exact hordered.nodup_paths
  · rw [Keyed.ofPairs_of_nodup]
    rw [List.map_map]
    exact hordered.nodup_paths
  · exact List.countP_eq_length_filter
  · exact count_of_ordered hordered

/-! ### Links -/

/-- A repository with two links to a folder outside of it, and one back to its top. -/
def linked : FileSystem where
  entries := [(["repo"], .folder), (["repo", "lib"], .link "../shared"), (["repo", "src"], .folder),
    (["repo", "src", "again"], .link "../lib"), (["repo", "src", "package.json"], .file []),
    (["repo", "src", "up"], .link ".."), (["shared"], .folder), (["shared", "pom.xml"], .file [])]

/-- What paths of `linked` lead to. -/
def linkedPaths : List (String × Place × Entry) :=
  [("repo", ["repo"], .folder), ("/repo", ["repo"], .folder), ("/repo/lib", ["shared"], .folder),
    ("/repo/lib/pom.xml", ["shared", "pom.xml"], .file []), ("/repo/src", ["repo", "src"], .folder),
    ("/repo/src/again", ["shared"], .folder),
    ("/repo/src/package.json", ["repo", "src", "package.json"], .file []),
    ("/repo/src/up", ["repo"], .folder)]

theorem resolve_linked {path : String} {found : Place × Entry} (h : (path, found) ∈ linkedPaths) :
    linked.resolve path = .ok found :=
  resolve_of_known 9 (by decide) h

theorem listing_linked : linked.listing ["repo"] = [("lib", .link "../shared"), ("src", .folder)] ∧
    linked.listing ["shared"] = [("pom.xml", .file [])] ∧
    linked.listing ["repo", "src"] =
      [("again", .link "../lib"), ("package.json", .file []), ("up", .link "..")] := by
  refine ⟨?_, ?_, ?_⟩ <;> cbv

theorem folderAt?_linked {path : String} {place : Place}
    (h : (path, place, .folder) ∈ linkedPaths) : Walk.folderAt? linked path = some place :=
  Walk.folderAt?_eq_some_iff.2 (resolve_linked h)

/-- The outer folder is listed under the first of its links. -/
theorem tree_linked : Walk.tree linked ["repo"] Filter.defaultSizeLimit =
    .node { path := "", isFolder := true } [
      .node { path := "lib", isFolder := true } [.node { path := "lib/pom.xml" } []],
      .node { path := "src", isFolder := true } [.node { path := "src/package.json" } []]] := by
  obtain ⟨htop, hshared, hsrc⟩ := listing_linked
  have hlib : Walk.Listed linked Filter.defaultSizeLimit "/repo" ["shared"] "lib"
      (linked.listing ["shared"]) [["shared"], ["repo"]] [.node { path := "lib/pom.xml" } []]
      [["shared"], ["repo"]] := by
    rw [hshared]
    refine .list ?_ .nil
    exact Walk.step_eq_list_iff.2 ⟨.inl rfl, ["shared", "pom.xml"], .file [],
      resolve_linked (by decide), rfl, by decide, rfl⟩
  have hbelow : Walk.Listed linked Filter.defaultSizeLimit "/repo" ["repo", "src"] "src"
      (linked.listing ["repo", "src"]) [["repo", "src"], ["shared"], ["repo"]]
      [.node { path := "src/package.json" } []] [["repo", "src"], ["shared"], ["repo"]] := by
    have hagain : Walk.step linked Filter.defaultSizeLimit ["repo", "src"] "/repo/src/again" "again"
        (.link "../lib") = .enter ["shared"] :=
      Walk.step_link (by decide) (resolve_linked (by decide))
    have hup : Walk.step linked Filter.defaultSizeLimit ["repo", "src"] "/repo/src/up" "up"
        (.link "..") = .enter ["repo"] :=
      Walk.step_link (by decide) (resolve_linked (by decide))
    rw [hsrc]
    refine .known hagain (by decide) (.list ?_ (.known hup (by decide) .nil))
    exact Walk.step_eq_list_iff.2 ⟨.inl rfl, ["repo", "src", "package.json"], .file [],
      resolve_linked (by decide), rfl, by decide, rfl⟩
  have hwalk : Walk.Listed linked Filter.defaultSizeLimit "/repo" ["repo"] ""
      (linked.listing ["repo"]) [["repo"]]
      [.node { path := "lib", isFolder := true } [.node { path := "lib/pom.xml" } []],
        .node { path := "src", isFolder := true } [.node { path := "src/package.json" } []]]
      [["repo", "src"], ["shared"], ["repo"]] := by
    have hlink : Walk.step linked Filter.defaultSizeLimit ["repo"] "/repo/lib" "lib"
        (.link "../shared") = .enter ["shared"] :=
      Walk.step_link (by decide) (resolve_linked (by decide))
    have hsub : Walk.step linked Filter.defaultSizeLimit ["repo"] "/repo/src" "src" .folder =
        .enter ["repo", "src"] := Walk.step_eq_enter_iff.2 ⟨by decide, .inl ⟨rfl, rfl⟩⟩
    rw [htop]
    exact .enter hlink (by decide) (folderAt?_linked (by decide)) hlib
      (.enter hsub (by decide) (folderAt?_linked (by decide)) hbelow .nil)
  obtain ⟨after, hlisted⟩ := @Walk.exists_listedBelow linked Filter.defaultSizeLimit ["repo"] rfl
  have hread : Walk.folderAt? linked "/repo" = some ["repo"] := folderAt?_linked (by decide)
  replace hlisted := (Walk.listedBelow_iff_of_read hread).1 hlisted
  exact congrArg (Tree.node _) (hwalk.unique hlisted).1

theorem walk_linked : walk linked "repo" =
    .ok { root := "/repo", tree := Walk.tree linked ["repo"] Filter.defaultSizeLimit } := by
  have hresolve : linked.resolve (Path.tidy "repo") = .ok (["repo"], .folder) :=
    resolve_linked (by decide)
  refine walk_eq_ok_iff.2 ⟨by decide, by decide, ?_, ["repo"], hresolve, rfl⟩
  exact isFolder_eq_true_iff.2 ⟨by cbv, _, hresolve⟩

theorem wellShaped_linked : linked.WellFormed ∧ ∃ checkout, walk linked "repo" = .ok checkout ∧
    checkout.tree.nodes.map (·.path) =
      ["", "lib", "lib/pom.xml", "src", "src/package.json"] ∧ checkout.WellShaped linked := by
  have hfs : linked.WellFormed := by decide
  refine ⟨hfs, _, walk_linked, ?_, wellShaped_of_walk hfs walk_linked⟩
  rw [tree_linked]
  rfl

end Checkout

end CodeReview
