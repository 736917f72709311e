import CodeReview.Proofs.Repository.Order
import Mathlib

/-!
# What a walk covers

A walk enters folders that can be reached from its root, each once, and lists in each of them the files
that the filter takes (`Checkout.walk_covers`). It comes to all of them, unless the operating system
refuses the path by which it comes to one (`IsRefused`): a folder may be reached by several paths, and
the walk tries only the one it has come by (`Checkout.walk_misses`).
-/

namespace CodeReview

open FileSystem Text

namespace FileSystem

/-- An entry of the folder at a place leads to a folder, and its name is not ignored. -/
def Leads (fs : FileSystem) (place : Place) (name : String) (next : Place) : Prop :=
  (∃ entry, (name, entry) ∈ fs.listing place) ∧ Filter.isIgnoredFolder name = false ∧
    fs.resolveFrom linkLimit place [name] = .ok (next, .folder)

/-- Entries lead from one folder to the next. -/
def Reachable (fs : FileSystem) : Place → Place → Prop :=
  Relation.ReflTransGen fun place next => ∃ name, fs.Leads place name next

/-- A path is refused if there are too many links on it or it is too long. -/
def IsRefused (fs : FileSystem) (path : String) : Prop :=
  fs.resolve path = .error .tooManyLinks ∨ fs.resolve path = .error .nameTooLong

/-- A node of the walk of `root` is the folder at a place, by its real path. -/
def StandsFor (fs : FileSystem) (root : Place) (node : Node) (place : Place) : Prop :=
  fs.Denotes root node.names (place, .folder)

/-- A node is the folder at one place. -/
theorem StandsFor.unique {fs : FileSystem} {root place found : Place} {node : Node}
    (h : fs.StandsFor root node place) (h' : fs.StandsFor root node found) : place = found :=
  (Prod.mk.inj (Denotes.unique h' h)).1

/-- No entry of a folder of the tree leads to a folder by a path that is refused. -/
def IsOpen (fs : FileSystem) (root : Place) (tree : Tree) : Prop :=
  ∀ ⦃node⦄, node ∈ tree.nodes → node.isFolder = true → ∀ ⦃place⦄, fs.StandsFor root node place →
    ∀ ⦃name next⦄, fs.Leads place name next →
      ¬ fs.IsRefused (Walk.location (pathOf root) (Path.child node.path name))

end FileSystem

namespace Walk

variable {fs : FileSystem} {sizeLimit : Int} {root place target : Place} {path name : String}
  {entry : Entry}

/-! ## Paths of a walk -/

section Paths

variable (hfs : fs.WellFormed) (hroot : fs.entry? root = some .folder)
  (hpath : ∀ name ∈ namesIn path, IsName name)
include hfs hroot hpath

/-- What a path is read as, its names lead to. -/
theorem resolveFrom_of_resolve {found : Place × Entry}
    (h : fs.resolve (location (pathOf root) path) = .ok found) :
    fs.resolveFrom linkLimit root (namesIn path) = .ok found := by
  rw [hfs.resolve_location hroot hpath] at h
  split at h
  · exact nomatch h
  · exact h

/-- What the names of a path lead to, the path is read as, unless it is refused. -/
theorem resolve_of_denotes {found : Place} (h : fs.Denotes root (namesIn path) (found, entry)) :
    fs.resolve (location (pathOf root) path) = .ok (found, entry) ∨
      fs.IsRefused (location (pathOf root) path) := by
  rw [IsRefused, hfs.resolve_location hroot hpath]
  split
  · exact .inr (.inr rfl)
  · exact (h.resolveFrom linkLimit).imp id .inl

/-- A folder that a path leads to is read, unless the path is refused. -/
theorem folderAt?_of_denotes (h : fs.Denotes root (namesIn path) (place, .folder)) :
    folderAt? fs (location (pathOf root) path) = some place ∨
      folderAt? fs (location (pathOf root) path) = none ∧
        fs.IsRefused (location (pathOf root) path) := by
  refine (resolve_of_denotes hfs hroot hpath h).imp folderAt?_eq_some_iff.2 fun hrefused => ?_
  refine ⟨Option.eq_none_iff_forall_ne_some.2 fun found hfound => ?_, hrefused⟩
  rw [IsRefused, folderAt?_eq_some_iff.1 hfound] at hrefused
  exact hrefused.elim (fun h => nomatch h) fun h => nomatch h

/-- Below a path that is refused all paths are. -/
theorem isRefused_child (hname : IsName name) (h : fs.IsRefused (location (pathOf root) path)) :
    fs.IsRefused (location (pathOf root) (Path.child path name)) := by
  have hchild := isName_of_child hpath hname
  have hsize := @size_location_le name path (pathOf root) hpath hname
  rw [IsRefused, hfs.resolve_location hroot hpath] at h
  rw [IsRefused, hfs.resolve_location hroot hchild]
  split
  · exact .inr rfl
  · next hshort =>
    rw [if_neg fun hlong => hshort (Nat.le_trans hlong hsize)] at h
    rw [namesIn_child hname]
    exact h.imp (resolveFrom_append_of_error · _) (resolveFrom_append_of_error · _)

omit hfs hroot hpath in
/-- No file is listed under a path that is refused. -/
theorem fileTree?_of_refused
    (h : fs.IsRefused (location (pathOf root) (Path.child path name))) :
    fileTree? fs sizeLimit (pathOf root) path (name, entry) = none := by
  unfold fileTree?
  dsimp only
  split
  · rcases h with h | h <;> rw [h]
  · rfl

/-- An entry that is entered leads to the folder, and so do the names of its path. -/
theorem leads_of_step (hread : fs.resolveFrom linkLimit root (namesIn path) = .ok (place, .folder))
    (hlisted : (name, entry) ∈ fs.listing place)
    (hstep : step fs sizeLimit place (location (pathOf root) (Path.child path name)) name entry =
      .enter target) :
    fs.Leads place name target ∧
      fs.Denotes root (namesIn (Path.child path name)) (target, .folder) := by
  have hentry := hfs.mem_listing_iff.1 hlisted
  have hname := hfs.isName_of_mem_listing hlisted
  have hchild := isName_of_child hpath hname
  obtain ⟨hignored, ⟨rfl, rfl⟩ | ⟨-, hresolve⟩⟩ := step_eq_enter_iff.1 hstep
  · have hnext := @WellFormed.resolveFrom_entry fs place .folder name linkLimit hfs hentry rfl
    refine ⟨⟨⟨_, hlisted⟩, hignored, hnext⟩, ?_⟩
    rw [namesIn_child hname]
    exact Denotes.append ⟨linkLimit, hread⟩ ⟨linkLimit, hnext⟩
  · have hnames := resolveFrom_of_resolve hfs hroot hchild hresolve
    refine ⟨⟨⟨_, hlisted⟩, hignored, ?_⟩, ⟨linkLimit, hnames⟩⟩
    obtain ⟨-, left, hleft, hrest⟩ := exists_left_of_resolveFrom hread
    have hnext := hrest 0 [name]
    rw [← namesIn_child hname, Nat.add_zero, hnames] at hnext
    obtain ⟨more, hmore⟩ := Nat.exists_eq_add_of_le hleft
    rw [hmore]
    exact resolveFrom_add hnext.symm more

/-- An entry that leads to a folder is entered, unless its path is refused. -/
theorem step_of_leads (hread : fs.Denotes root (namesIn path) (place, .folder))
    (hlisted : (name, entry) ∈ fs.listing place) (hignored : Filter.isIgnoredFolder name = false)
    (hnext : fs.resolveFrom linkLimit place [name] = .ok (target, .folder)) :
    step fs sizeLimit place (location (pathOf root) (Path.child path name)) name entry =
        .enter target ∨
      fs.IsRefused (location (pathOf root) (Path.child path name)) := by
  have hentry := hfs.mem_listing_iff.1 hlisted
  have hname := hfs.isName_of_mem_listing hlisted
  have hchild := isName_of_child hpath hname
  have hnames : fs.Denotes root (namesIn (Path.child path name)) (target, .folder) := by
    rw [namesIn_child hname]
    exact hread.append ⟨linkLimit, hnext⟩
  cases hlink : entry.isLink with
  | false =>
    rw [hfs.resolveFrom_entry hentry hlink] at hnext
    obtain ⟨rfl, rfl⟩ := Prod.mk.inj (Except.ok.inj hnext)
    exact .inl (step_eq_enter_iff.2 ⟨hignored, .inl ⟨rfl, rfl⟩⟩)
  | true =>
    refine (resolve_of_denotes hfs hroot hchild hnames).imp (fun hresolve => ?_) id
    exact step_eq_enter_iff.2 ⟨hignored, .inr ⟨.inr hlink, hresolve⟩⟩

end Paths

/-! ## Folders -/

/-- The folders that a walk lists are those of the places it enters, and each can be reached. -/
theorem Listed.stands (hfs : fs.WellFormed) (hroot : fs.entry? root = some .folder)
    {es : List (String × Entry)} {entered after : List Place} {trees : List Tree}
    (h : Listed fs sizeLimit (pathOf root) place path es entered trees after)
    (hes : es ⊆ fs.listing place) (hpath : ∀ name ∈ namesIn path, IsName name)
    (hread : fs.resolveFrom linkLimit root (namesIn path) = .ok (place, .folder)) :
    ∃ places, List.Forall₂ (fs.StandsFor root) ((Tree.nodesOf trees).filter (·.isFolder)) places ∧
      after = places.reverse ++ entered ∧ ∀ next ∈ places, fs.Reachable place next := by
  induction h with
  | nil => exact ⟨[], .nil, rfl, fun next hnext => nomatch hnext⟩
  | skip _ _ ih | known _ _ _ ih => exact ih (List.cons_subset.1 hes).2 hpath hread
  | list _ _ ih => exact ih (List.cons_subset.1 hes).2 hpath hread
  | @enter place path name entry rest entered target found children between trees after hstep hnew
      hfound hbelow hrest ihbelow ihrest =>
    obtain ⟨hlisted, hes⟩ := List.cons_subset.1 hes
    obtain ⟨hleads, hdenotes⟩ := leads_of_step hfs hroot hpath hread hlisted hstep
    have hname := hfs.isName_of_mem_listing hlisted
    have hchild := isName_of_child hpath hname
    have hreadChild := resolveFrom_of_resolve hfs hroot hchild (folderAt?_eq_some_iff.1 hfound)
    obtain ⟨rfl, -⟩ := Prod.mk.inj (hdenotes.unique ⟨linkLimit, hreadChild⟩)
    obtain ⟨below, hstands, rfl, hreach⟩ := ihbelow (List.Subset.refl _) hchild hreadChild
    obtain ⟨behind, hstands', rfl, hreach'⟩ := ihrest hes hpath hread
    refine ⟨found :: (below ++ behind), ?_, by simp, ?_⟩
    · rw [Tree.nodesOf, Tree.nodes, List.cons_append, List.filter_cons_of_pos rfl, List.filter_append]
      exact .cons hdenotes (List.rel_append hstands hstands')
    · refine List.forall_mem_cons.2 ⟨.single ⟨name, hleads⟩, List.forall_mem_append.2 ⟨?_, hreach'⟩⟩
      exact fun next hnext => .head ⟨name, hleads⟩ (hreach next hnext)
  | @closed place path name entry rest entered target trees after hstep hnew _ _ ih =>
    obtain ⟨hlisted, hes⟩ := List.cons_subset.1 hes
    obtain ⟨hleads, hdenotes⟩ := leads_of_step hfs hroot hpath hread hlisted hstep
    obtain ⟨places, hstands, rfl, hreach⟩ := ih hes hpath hread
    exact ⟨target :: places, .cons hdenotes hstands, by simp,
      List.forall_mem_cons.2 ⟨.single ⟨name, hleads⟩, hreach⟩⟩

section Below

variable (hfs : fs.WellFormed) (hroot : fs.entry? root = some .folder)
  (hpath : ∀ name ∈ namesIn path, IsName name)
  (hplace : fs.Denotes root (namesIn path) (place, .folder))
  {entered after : List Place} {trees : List Tree}
  (h : ListedBelow fs sizeLimit (pathOf root) path entered trees after)
include hfs hroot hpath hplace h

/-- The folders below a folder are those of the places that are entered, and each can be reached. -/
theorem ListedBelow.stands : ∃ places,
    List.Forall₂ (fs.StandsFor root) ((Tree.nodesOf trees).filter (·.isFolder)) places ∧
      after = places.reverse ++ entered ∧ ∀ next ∈ places, fs.Reachable place next := by
  rcases folderAt?_of_denotes hfs hroot hpath hplace with hread | ⟨hclosed, -⟩
  · have hnames := resolveFrom_of_resolve hfs hroot hpath (folderAt?_eq_some_iff.1 hread)
    exact ((listedBelow_iff_of_read hread).1 h).stands hfs hroot (List.Subset.refl _) hpath hnames
  · obtain ⟨rfl, rfl⟩ := (listedBelow_iff_of_closed hclosed).1 h
    exact ⟨[], .nil, rfl, fun next hnext => nomatch hnext⟩

/-- A folder that an entry of a folder leads to is entered, unless the path of the entry is refused. -/
theorem ListedBelow.next (hleads : fs.Leads place name target) :
    target ∈ after ∨ fs.IsRefused (location (pathOf root) (Path.child path name)) := by
  obtain ⟨⟨entry, hlisted⟩, hignored, hnext⟩ := hleads
  rcases folderAt?_of_denotes hfs hroot hpath hplace with hread | ⟨-, hrefused⟩
  · refine Or.imp (fun hstep => ?_) id
      (@step_of_leads fs sizeLimit root place target path name entry hfs hroot hpath hplace hlisted
        hignored hnext)
    exact ((listedBelow_iff_of_read hread).1 h).mem_after hlisted hstep
  · have hname := hfs.isName_of_mem_listing hlisted
    exact .inr (isRefused_child hfs hroot hpath hname hrefused)

/-- The files of a folder are its entries that the filter takes. -/
theorem ListedBelow.files : trees.filter (!·.here.isFolder) =
    (fs.listing place).filterMap (fileTree? fs sizeLimit (pathOf root) path) := by
  rcases folderAt?_of_denotes hfs hroot hpath hplace with hread | ⟨hclosed, hrefused⟩
  · exact ((listedBelow_iff_of_read hread).1 h).files
  · rw [((listedBelow_iff_of_closed hclosed).1 h).1]
    refine (List.filterMap_eq_nil_iff.2 fun ⟨name, entry⟩ hentry => ?_).symm
    have hname := hfs.isName_of_mem_listing hentry
    exact fileTree?_of_refused (isRefused_child hfs hroot hpath hname hrefused)

end Below

/-! ## The whole tree -/

/-- A walk of the folder at `root` covers places: those of the folders of its tree, in their order. -/
structure Covers (fs : FileSystem) (root : Place) (sizeLimit : Int) (tree : Tree)
    (places : List Place) : Prop where
  /-- Every folder of the tree is the folder at one of the places. -/
  stands : List.Forall₂ (fs.StandsFor root) (tree.nodes.filter (·.isFolder)) places
  /-- No folder is there twice. -/
  nodup : places.Nodup
  reachable : ∀ place ∈ places, fs.Reachable root place
  /-- Where an entry leads to a folder, the folder is there or the path of the entry is refused. -/
  next {node : Node} (hnode : node ∈ tree.nodes) (hfolder : node.isFolder = true) {place : Place}
    (hplace : fs.StandsFor root node place) {name : String} {next : Place}
    (hleads : fs.Leads place name next) :
    next ∈ places ∨ fs.IsRefused (location (pathOf root) (Path.child node.path name))
  /-- The files of a folder are the entries that the filter takes. -/
  files {folder : Tree} (hfolder : folder ∈ tree.subtrees) (hisFolder : folder.here.isFolder = true)
    {place : Place} (hplace : fs.StandsFor root folder.here place) :
    folder.children.filter (!·.here.isFolder) =
      (fs.listing place).filterMap (fileTree? fs sizeLimit (pathOf root) folder.here.path)
  /-- No path is there twice. -/
  once : (tree.nodes.map (·.path)).Nodup

/-- Every place is that of a folder of the tree. -/
theorem exists_of_stands {nodes : List Node} {places : List Place}
    (h : List.Forall₂ (fs.StandsFor root) nodes places) (hplace : place ∈ places) :
    ∃ node ∈ nodes, fs.StandsFor root node place := by
  induction h with
  | nil => exact nomatch hplace
  | @cons node found _ _ hstands _ ih =>
    rcases List.mem_cons.1 hplace with rfl | hplace
    · exact ⟨node, List.mem_cons_self, hstands⟩
    · exact (ih hplace).imp fun other => And.imp_left (List.mem_cons_of_mem node)

/-- A walk that no path is refused to comes to every folder that can be reached. -/
theorem Covers.complete {tree : Tree} {places : List Place}
    (h : Covers fs root sizeLimit tree places) (hroot : root ∈ places) (hopen : fs.IsOpen root tree)
    (hreach : fs.Reachable root target) : target ∈ places := by
  induction hreach with
  | refl => exact hroot
  | @tail place target _ hleads ih =>
    obtain ⟨name, hleads⟩ := hleads
    obtain ⟨node, hnode, hstands⟩ := exists_of_stands h.stands ih
    obtain ⟨hmem, hfolder⟩ := List.mem_filter.1 hnode
    exact (h.next hmem hfolder hstands hleads).resolve_right (hopen hmem hfolder hstands hleads)

/-- The tree of a folder covers what can be reached. -/
theorem covers_tree (hfs : fs.WellFormed) (hroot : fs.entry? root = some .folder) :
    ∃ places, Covers fs root sizeLimit (tree fs root sizeLimit) (root :: places) := by
  obtain ⟨after, hlisted, hbelow⟩ := exists_entered_tree fs sizeLimit hroot
  have hnil : ∀ name ∈ namesIn "", IsName name := fun name hname => nomatch hname
  have htop : fs.Denotes root (namesIn "") (root, .folder) := denotes_nil hroot
  obtain ⟨places, hstands, hafter, hreach⟩ := hlisted.stands hfs hroot hnil htop
  have hmem {place : Place} : place ∈ after ↔ place ∈ root :: places := by
    simp [hafter, or_comm]
  have hordered := @ordered_tree fs sizeLimit root hfs hroot
  have hpath : ∀ t ∈ (tree fs root sizeLimit).subtrees, ∀ name ∈ t.here.names, IsName name := by
    intro t ht
    have hnode := List.mem_map_of_mem (f := Tree.here) ht
    rw [Tree.map_subtrees] at hnode
    exact hordered.isName_of_mem hnil t.here hnode
  refine ⟨places, ⟨.cons htop hstands, ?_, List.forall_mem_cons.2 ⟨.refl, hreach⟩, ?_, ?_,
    hordered.nodup_paths⟩⟩
  · have hnodup := (hlisted.entered_after (entered_folder hroot)).nodup
    rw [hafter, ← List.reverse_cons] at hnodup
    exact (List.reverse_perm _).nodup_iff.1 hnodup
  · intro node hnode hfolder place hplace name next hleads
    obtain ⟨t, ht, rfl⟩ := List.mem_map.1 (Tree.map_subtrees _ ▸ hnode)
    rcases hbelow t ht with ⟨hfile, -⟩ | ⟨-, before, behind, hwalk, hsubset⟩
    · exact nomatch hfile.symm.trans hfolder
    · refine (hwalk.next hfs hroot (hpath t ht) hplace hleads).imp (fun hnext => ?_) id
      exact hmem.1 (hsubset hnext)
  · intro t ht hfolder place hplace
    rcases hbelow t ht with ⟨hfile, -⟩ | ⟨-, before, behind, hwalk, -⟩
    · exact nomatch hfile.symm.trans hfolder
    · exact hwalk.files hfs hroot (hpath t ht) hplace

end Walk

namespace Checkout

theorem stands_lib : linked.StandsFor ["repo"] { path := "lib", isFolder := true } ["shared"] :=
  ⟨linkLimit, resolveFrom_of_within 9 (by decide)⟩

theorem stands_src :
    linked.StandsFor ["repo"] { path := "src", isFolder := true } ["repo", "src"] :=
  ⟨linkLimit, resolveFrom_of_within 9 (by decide)⟩

theorem isOpen_linked :
    linked.IsOpen ["repo"] (Walk.tree linked ["repo"] Filter.defaultSizeLimit) := by
  rintro node hnode hfolder place hplace name next ⟨⟨entry, hlisted⟩, -, -⟩
  have hfound {path : String} (h : path ∈ linkedPaths.map (·.1)) : ¬ linked.IsRefused path := by
    obtain ⟨⟨path, found⟩, hpath, rfl⟩ := List.mem_map.1 h
    rintro (hrefused | hrefused) <;> exact nomatch (resolve_linked hpath).symm.trans hrefused
  obtain ⟨htop, hshared, hsrc⟩ := listing_linked
  rw [tree_linked] at hnode
  simp only [Tree.nodes, Tree.nodesOf, List.append_nil, List.cons_append, List.nil_append,
    List.mem_cons, List.not_mem_nil, or_false] at hnode
  rcases hnode with rfl | rfl | rfl | rfl | rfl
  · obtain rfl := hplace.unique (denotes_nil rfl)
    rw [htop] at hlisted
    rcases List.mem_cons.1 hlisted with h | h
    · cases h
      exact hfound (by decide)
    · cases List.mem_singleton.1 h
      exact hfound (by decide)
  · obtain rfl := hplace.unique stands_lib
    rw [hshared] at hlisted
    cases List.mem_singleton.1 hlisted
    exact hfound (by decide)
  · exact nomatch hfolder
  · obtain rfl := hplace.unique stands_src
    rw [hsrc] at hlisted
    simp only [List.mem_cons, List.not_mem_nil, or_false] at hlisted
    rcases hlisted with h | h | h <;> cases h <;> exact hfound (by decide)
  · exact nomatch hfolder

/-- Two links to one folder, of which the first goes through as many links as a path may. -/
def winding : FileSystem where
  entries := [(["repo"], .folder), (["repo", "first"], .link ("../" ++ copies 39 "l/" ++ "pkg")),
    (["repo", "second"], .link "../pkg"), (["l"], .link "."), (["pkg"], .folder),
    (["pkg", "sub"], .link "../far"), (["far"], .folder), (["far", "x.py"], .file [])]

theorem stands_first : winding.StandsFor ["repo"] { path := "first", isFolder := true } ["pkg"] :=
  ⟨linkLimit, resolveFrom_of_within 90 (by decide)⟩

theorem listing_winding :
    winding.listing ["repo"] =
      [("first", .link ("../" ++ copies 39 "l/" ++ "pkg")), ("second", .link "../pkg")] ∧
    winding.listing ["pkg"] = [("sub", .link "../far")] := by
  constructor <;> cbv

/-- Below the first of the two links nothing is found. -/
theorem tree_winding : Walk.tree winding ["repo"] Filter.defaultSizeLimit =
    .node { path := "", isFolder := true } [.node { path := "first", isFolder := true } []] := by
  obtain ⟨htop, hpkg⟩ := listing_winding
  have hread : winding.resolve "/repo" = .ok (["repo"], .folder) :=
    resolve_of_within 9 (by decide) (by decide)
  have hfirst : winding.resolve "/repo/first" = .ok (["pkg"], .folder) :=
    resolve_of_within 90 (by decide) (by decide)
  have hsecond : winding.resolve "/repo/second" = .ok (["pkg"], .folder) :=
    resolve_of_within 9 (by decide) (by decide)
  have hrefused : winding.resolve "/repo/first/sub" = .error .tooManyLinks :=
    resolve_of_within 90 (by decide) (by decide)
  have hskip : Walk.step winding Filter.defaultSizeLimit ["pkg"] "/repo/first/sub" "sub"
      (.link "../far") = .skip := by
    rw [Walk.step_of_followed (.inr rfl), hrefused]
  have hwalk : Walk.Listed winding Filter.defaultSizeLimit "/repo" ["repo"] ""
      (winding.listing ["repo"]) [["repo"]] [.node { path := "first", isFolder := true } []]
      [["pkg"], ["repo"]] := by
    rw [htop]
    refine .enter (Walk.step_link (by decide) hfirst) (by decide)
      (Walk.folderAt?_eq_some_iff.2 hfirst) ?_
      (.known (Walk.step_link (by decide) hsecond) (by decide) .nil)
    rw [hpkg]
    exact .skip hskip .nil
  obtain ⟨after, hlisted⟩ := @Walk.exists_listedBelow winding Filter.defaultSizeLimit ["repo"] rfl
  replace hlisted :=
    (Walk.listedBelow_iff_of_read (Walk.folderAt?_eq_some_iff.2 hread)).1 hlisted
  exact congrArg (Tree.node _) (hwalk.unique hlisted).1

end Checkout

end CodeReview
