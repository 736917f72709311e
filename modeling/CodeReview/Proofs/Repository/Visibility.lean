import CodeReview.Proofs.Repository.Coverage

/-!
# What a walk shows

* `Filter.looksInto`: whether the bytes of a file decide about it. Otherwise its name and size do
  (`Filter.includes_of_not_looksInto`).
* `Checkout.Meets`, `Checkout.Opens`: the entries that a walk comes to, and those whose bytes it looks at.
* `Checkout.Visible`: what holds of every file that is listed.
* `Checkout.visible_of_walk`: every walk shows visible files, and it lists and opens nothing but regular
  files exactly if every link to a pipe that it comes to is turned away by its name.
-/

namespace CodeReview

open FileSystem Text

/-! ## What the filter looks at -/

namespace Filter

/-- Whether the bytes of a file of this name and size decide about it. -/
def looksInto (name : String) (size sizeLimit : Int) : Bool :=
  !isHidden name && !decide (sizeLimit < size) && !manifests.contains name &&
    !binaryExtensions.contains (Path.nameExtension name) && (mediaVerdict? name).isNone

/-- Whether a file is listed for its name and size, whatever its bytes are. -/
def listsByName (name : String) (size sizeLimit : Int) : Bool :=
  !isHidden name && !decide (sizeLimit < size) && (manifests.contains name ||
    (!binaryExtensions.contains (Path.nameExtension name) && mediaVerdict? name == some false))

variable {fs : FileSystem} {path : String} {size sizeLimit : Int}

/-- Where the bytes decide, they do. -/
theorem includes_of_looksInto (h : looksInto (Path.name path) size sizeLimit = true) :
    includes fs path (some size) sizeLimit = match fs.readBytes path with
      | .ok bytes => !looksBinary (bytes.take sampleSize)
      | .error _ => false := by
  simp only [looksInto, Bool.and_eq_true, Bool.not_eq_true', decide_eq_false_iff_not,
    Option.isNone_iff_eq_none] at h
  obtain ⟨⟨⟨⟨hhidden, hsize⟩, hmanifest⟩, hextension⟩, hmedia⟩ := h
  simp only [includes, isBinary, hhidden, hsize, hmanifest, hextension, hmedia]
  cases fs.readBytes path <;> simp

theorem includes_of_readBytes {bytes : List UInt8} (h : looksInto (Path.name path) size sizeLimit = true)
    (hread : fs.readBytes path = .ok bytes) :
    includes fs path (some size) sizeLimit = !looksBinary (bytes.take sampleSize) := by
  rw [includes_of_looksInto h, hread]

/-- Where the bytes do not decide, they are not looked at. -/
theorem includes_of_not_looksInto (h : looksInto (Path.name path) size sizeLimit = false) :
    includes fs path (some size) sizeLimit = listsByName (Path.name path) size sizeLimit := by
  unfold includes isBinary listsByName
  unfold looksInto at h
  dsimp only
  generalize isHidden (Path.name path) = hidden at *
  generalize manifests.contains (Path.name path) = manifest at *
  generalize binaryExtensions.contains (Path.nameExtension (Path.name path)) = extension at *
  generalize mediaVerdict? (Path.name path) = media at *
  by_cases hsize : sizeLimit < size <;>
    cases hidden <;> cases manifest <;> cases extension <;> rcases media with _ | _ | _ <;>
    simp_all

/-- Whether a file is left out for its name and size, whatever its bytes are. -/
def turnsAway (name : String) (size sizeLimit : Int) : Bool :=
  !looksInto name size sizeLimit && !listsByName name size sizeLimit

theorem turnsAway_iff {name : String} : turnsAway name size sizeLimit = true ↔
    looksInto name size sizeLimit = false ∧ listsByName name size sizeLimit = false := by
  simp [turnsAway]

end Filter

/-! ## What paths lead to -/

namespace FileSystem

variable {fs : FileSystem} {place found : Place} {entry : Entry} {name : String}

/-- What stands at the end of a path below a root is a file, a folder or a pipe. -/
theorem WellFormed.cases_of_resolve (hfs : fs.WellFormed) {root : Place} {path : String}
    (h : fs.resolve (Walk.location (pathOf root) path) = .ok (found, entry)) :
    (∃ bytes, entry = .file bytes) ∨ entry = .folder ∨ entry = .pipe := by
  have hlink := hfs.founded.not_link_of_resolve h
  cases entry with
  | file bytes => exact .inl ⟨bytes, rfl⟩
  | folder => exact .inr (.inl rfl)
  | link text => exact nomatch hlink
  | pipe => exact .inr (.inr rfl)

/-- The name at the end of a path below a root. -/
theorem name_location (h : IsName name) (root path : String) :
    Path.name (Walk.location root (Path.child path name)) = name := by
  have hname : Path.name name = name := by
    have hchild : Path.name (Path.child "" name) = name := name_child h
    simpa [Path.child] using hchild
  have hslash (front : String) : Path.name (front ++ "/" ++ name) = name := by
    have hlist : (front ++ "/" ++ name).toList = front.toList ++ '/' :: name.toList := by
      simp [String.toList_append]
    rw [Path.name, onChars, hlist, Chars.afterLast_append h.no_slash, String.ofList_toList]
  have hchild : Path.child path name = name ∨ ∃ front, Path.child path name = front ++ "/" ++ name := by
    unfold Path.child
    split
    · exact .inl rfl
    · exact .inr ⟨path, rfl⟩
  rw [Walk.location, if_neg (by simpa using child_ne_empty h), Path.joinTo]
  split
  · exact name_child h
  split
  · next hbase =>
    obtain hchild | ⟨front, hchild⟩ := hchild
    · rw [hchild]
      rcases Bool.or_eq_true _ _ ▸ hbase with hempty | hend
      · rw [String.isEmpty_iff.1 hempty, String.empty_append]
        exact hname
      · obtain ⟨before, hbefore⟩ := List.isSuffixOf_iff_suffix.1 hend
        have hroot : root = String.ofList before ++ "/" := by
          apply String.toList_injective
          rw [String.toList_append, String.toList_ofList, hbefore]
        rw [hroot]
        exact hslash _
    · rw [hchild, ← String.append_assoc, ← String.append_assoc]
      exact hslash _
  · obtain hchild | ⟨front, hchild⟩ := hchild
    · rw [hchild]
      exact hslash root
    · rw [hchild, ← String.append_assoc, ← String.append_assoc]
      exact hslash _

end FileSystem

/-! ## What a walk lists -/

mutual

theorem Tree.nodes_subset_of_mem_subtrees {tree t : Tree} (h : t ∈ tree.subtrees) :
    t.nodes ⊆ tree.nodes := by
  cases tree with
  | node here children =>
    rcases List.mem_cons.1 h with rfl | h
    · exact List.Subset.refl _
    · exact List.subset_cons_of_subset here (Tree.nodes_subset_of_mem_subtreesOf h)

theorem Tree.nodes_subset_of_mem_subtreesOf {trees : List Tree} {t : Tree}
    (h : t ∈ Tree.subtreesOf trees) : t.nodes ⊆ Tree.nodesOf trees := by
  cases trees with
  | nil => exact nomatch h
  | cons tree trees =>
    rcases List.mem_append.1 h with h | h
    · exact List.subset_append_of_subset_left _ (Tree.nodes_subset_of_mem_subtrees h)
    · exact List.subset_append_of_subset_right _ (Tree.nodes_subset_of_mem_subtreesOf h)

end

theorem Tree.here_mem_nodes_of_mem_children {tree t child : Tree} (h : t ∈ tree.subtrees)
    (hchild : child ∈ t.children) : child.here ∈ tree.nodes := by
  refine Tree.nodes_subset_of_mem_subtrees h ?_
  cases t with
  | node here children =>
    rw [Tree.nodes, Tree.nodesOf_eq]
    refine List.mem_cons_of_mem _ (List.mem_flatMap.2 ⟨child, hchild, ?_⟩)
    cases child
    exact List.mem_cons_self

theorem Tree.exists_of_mem_nodes {tree : Tree} {n : Node} (h : n ∈ tree.nodes) :
    n = tree.here ∨ ∃ t ∈ tree.subtrees, ∃ child ∈ t.children, child.here = n := by
  rw [← Tree.map_withParents _ none] at h
  obtain ⟨⟨n, parent⟩, hparent, rfl⟩ := List.mem_map.1 h
  refine (Tree.exists_of_mem_withParents hparent).imp And.left ?_
  rintro ⟨t, ht, -, hchild⟩
  exact ⟨t, ht, List.mem_map.1 hchild⟩

namespace Walk

variable {fs : FileSystem} {sizeLimit : Int} {root path : String} {place : Place}
  {es : List (String × Entry)} {entered after : List Place} {trees : List Tree}

/-- A walk goes through no folder with an ignored name. -/
theorem Listed.shown (hfs : fs.WellFormed)
    (h : Listed fs sizeLimit root place path es entered trees after) (hes : es ⊆ fs.listing place)
    (hpath : ∀ name ∈ namesIn path, Filter.isIgnoredFolder name = false) :
    ∀ node ∈ Tree.nodesOf trees, ∀ name ∈ node.names.dropLast,
      Filter.isIgnoredFolder name = false := by
  have hhere {path name : String} {entry : Entry} {place : Place}
      (hpath : ∀ name ∈ namesIn path, Filter.isIgnoredFolder name = false)
      (hentry : (name, entry) ∈ fs.listing place) :
      ∀ other ∈ (namesIn (Path.child path name)).dropLast,
        Filter.isIgnoredFolder other = false := by
    rw [namesIn_child (hfs.isName_of_mem_listing hentry), List.dropLast_concat]
    exact hpath
  have hbelow {path name location : String} {entry : Entry} {place target : Place}
      (hpath : ∀ name ∈ namesIn path, Filter.isIgnoredFolder name = false)
      (hentry : (name, entry) ∈ fs.listing place)
      (hstep : step fs sizeLimit place location name entry = .enter target) :
      ∀ other ∈ namesIn (Path.child path name), Filter.isIgnoredFolder other = false := by
    rw [namesIn_child (hfs.isName_of_mem_listing hentry)]
    exact List.forall_mem_append.2 ⟨hpath, by simpa using (step_eq_enter_iff.1 hstep).1⟩
  induction h with
  | nil => exact fun node hnode => nomatch hnode
  | skip _ _ ih | known _ _ _ ih => exact ih (List.cons_subset.1 hes).2 hpath
  | list _ _ ih =>
    obtain ⟨hentry, hrest⟩ := List.cons_subset.1 hes
    exact List.forall_mem_cons.2 ⟨hhere hpath hentry, ih hrest hpath⟩
  | enter hstep _ _ _ _ ihbelow ih =>
    obtain ⟨hentry, hrest⟩ := List.cons_subset.1 hes
    refine List.forall_mem_cons.2 ⟨hhere hpath hentry, List.forall_mem_append.2 ⟨?_, ih hrest hpath⟩⟩
    exact ihbelow (List.Subset.refl _) (hbelow hpath hentry hstep)
  | closed _ _ _ _ ih =>
    obtain ⟨hentry, hrest⟩ := List.cons_subset.1 hes
    exact List.forall_mem_cons.2 ⟨hhere hpath hentry, ih hrest hpath⟩

theorem fileTree?_eq_some_iff (place : Place) {name : String} {entry : Entry} {t : Tree} :
    fileTree? fs sizeLimit root path (name, entry) = some t ↔ ∃ size,
      step fs sizeLimit place (location root (Path.child path name)) name entry = .list size ∧
        t = .node { path := Path.child path name, size := size } [] := by
  constructor
  · intro h
    cases hstep : step fs sizeLimit place (location root (Path.child path name)) name entry with
    | list size => exact ⟨size, rfl, Option.some.inj (h.symm.trans (fileTree?_of_list hstep))⟩
    | skip => exact nomatch h.symm.trans (fileTree?_eq_none fun size hlist => nomatch hstep.symm.trans hlist)
    | enter => exact nomatch h.symm.trans (fileTree?_eq_none fun size hlist => nomatch hstep.symm.trans hlist)
  · rintro ⟨size, hstep, rfl⟩
    exact fileTree?_of_list hstep

/-- The files below a node of a walk are the entries that it lists there. -/
theorem mem_children_iff (hplace : fs.entry? place = some .folder) {t child : Tree}
    (ht : t ∈ (tree fs place sizeLimit).subtrees) :
    child ∈ t.children ∧ child.here.isFolder = false ↔
      t.here.isFolder = true ∧ ∃ inner name entry size,
        folderAt? fs (location (pathOf place) t.here.path) = some inner ∧
        (name, entry) ∈ fs.listing inner ∧
        step fs sizeLimit inner (location (pathOf place) (Path.child t.here.path name)) name entry =
          .list size ∧
        child = .node { path := Path.child t.here.path name, size := size } [] := by
  obtain ⟨after, -, hbelow⟩ := exists_entered_tree fs sizeLimit hplace
  rcases hbelow t ht with ⟨hfile, hnil⟩ | ⟨hfolder, before, behind, hlisted, -⟩
  · simp [hfile, hnil]
  cases hread : folderAt? fs (location (pathOf place) t.here.path) with
  | none => simp [((listedBelow_iff_of_closed hread).1 hlisted).1]
  | some inner =>
    have hfiles := ((listedBelow_iff_of_read hread).1 hlisted).files
    have hmem : child ∈ t.children ∧ child.here.isFolder = false ↔
        child ∈ t.children.filter (!·.here.isFolder) := by simp
    rw [hmem, hfiles, List.mem_filterMap]
    constructor
    · rintro ⟨⟨name, entry⟩, hentry, htree⟩
      obtain ⟨size, hstep, rfl⟩ := (fileTree?_eq_some_iff inner).1 htree
      exact ⟨hfolder, inner, name, entry, size, rfl, hentry, hstep, rfl⟩
    · rintro ⟨-, found, name, entry, size, hfound, hentry, hstep, rfl⟩
      obtain rfl := Option.some.inj hfound
      exact ⟨(name, entry), hentry, fileTree?_of_list hstep⟩

/-- A name in a folder that is not that of a link is read as what stands there. -/
theorem resolve_child_of_not_link {root found : Place} {path name : String} {entry seen : Entry}
    (hfs : fs.WellFormed) (hroot : fs.entry? root = some .folder)
    (hpath : ∀ name ∈ namesIn path, IsName name)
    (hread : folderAt? fs (location (pathOf root) path) = some place)
    (hentry : (name, entry) ∈ fs.listing place) (hlink : entry.isLink = false)
    (h : fs.resolve (location (pathOf root) (Path.child path name)) = .ok (found, seen)) :
    found = place ++ [name] ∧ seen = entry := by
  have hname := hfs.isName_of_mem_listing hentry
  have hfolder := resolveFrom_of_resolve hfs hroot hpath (folderAt?_eq_some_iff.1 hread)
  have hchild := resolveFrom_of_resolve hfs hroot (isName_of_child hpath hname) h
  obtain ⟨-, left, -, hrest⟩ := exists_left_of_resolveFrom hfolder
  have hnext := hrest 0 [name]
  rw [← namesIn_child hname, Nat.add_zero, hchild,
    hfs.resolveFrom_entry (hfs.mem_listing_iff.1 hentry) hlink] at hnext
  exact Prod.mk.inj (Except.ok.inj hnext)

end Walk

/-! ## Walked repositories -/

namespace Checkout

variable {fs : FileSystem} {sizeLimit : Int} {checkout : Checkout} {root path : String}
  {found : Place} {entry seen : Entry}

/-- A walk comes to an entry as a path: the entry stands in a folder that it lists and can read. -/
def Meets (fs : FileSystem) (checkout : Checkout) (path : String) (entry : Entry) : Prop :=
  ∃ folder ∈ checkout.tree.nodes, folder.isFolder = true ∧ ∃ place name,
    Walk.folderAt? fs (Walk.location checkout.root folder.path) = some place ∧
      (name, entry) ∈ fs.listing place ∧ path = Path.child folder.path name

/-- A walk comes to a file, or to a link, that leads to something other than a folder. -/
structure Follows (fs : FileSystem) (checkout : Checkout) (path : String) (entry : Entry)
    (found : Place) (seen : Entry) : Prop where
  meets : Meets fs checkout path entry
  judged : entry.isFile = true ∨ entry.isLink = true
  leadsTo : fs.resolve (Walk.location checkout.root path) = .ok (found, seen)
  not_folder : seen.isFolder = false

/-- A walk looks at the bytes of what a path leads to. -/
def Opens (fs : FileSystem) (sizeLimit : Int) (checkout : Checkout) (path : String) (seen : Entry) :
    Prop :=
  ∃ entry found, Follows fs checkout path entry found seen ∧
    Filter.looksInto (Path.name path) seen.size sizeLimit = true

/-- What holds of every file that a walk lists. -/
structure Visible (fs : FileSystem) (sizeLimit : Int) (checkout : Checkout) (node : Node) : Prop where
  shown : Filter.isHidden node.name = false
  folders : ∀ name ∈ node.names.dropLast, Filter.isIgnoredFolder name = false
  /-- It is a regular file of its size, or a link to a pipe. -/
  leadsTo : ∃ found seen, fs.resolve (Walk.location checkout.root node.path) = .ok (found, seen) ∧
    node.size = seen.size ∧ node.size ≤ sizeLimit ∧
      (seen.isFile = true ∨ seen = .pipe ∧ ∃ text, Meets fs checkout node.path (.link text))

section Walked

variable (hfs : fs.WellFormed) (hwalk : walk fs root sizeLimit = .ok checkout)
include hfs

/-- The location of an entry has its name. -/
theorem Meets.name_location (h : Meets fs checkout path entry) :
    Path.name (Walk.location checkout.root path) = Path.name path := by
  obtain ⟨folder, -, -, place, name, -, hentry, rfl⟩ := h
  have hname := hfs.isName_of_mem_listing hentry
  rw [FileSystem.name_location hname, name_child hname]

include hwalk

omit hfs in
/-- The files of a walk are what it follows and the filter takes. -/
theorem mem_files_iff {node : Node} : node ∈ checkout.files ↔ ∃ entry found seen,
    Follows fs checkout node.path entry found seen ∧
      Filter.includes fs (Walk.location checkout.root node.path) (some (seen.size : Int)) sizeLimit =
        true ∧ node = { path := node.path, size := seen.size } := by
  obtain ⟨-, -, -, place, hresolve, rfl⟩ := walk_eq_ok_iff.1 hwalk
  have hplace := entry?_of_resolve hresolve
  constructor
  · intro hnode
    obtain ⟨hnode, hfile⟩ := List.mem_filter.1 hnode
    rcases Tree.exists_of_mem_nodes hnode with rfl | ⟨folder, hfolder, child, hchild, rfl⟩
    · exact nomatch hfile
    obtain ⟨hisFolder, inner, name, entry, size, hread, hentry, hstep, rfl⟩ :=
      (Walk.mem_children_iff hplace hfolder).1 ⟨hchild, by simpa using hfile⟩
    obtain ⟨hjudged, found, seen, hseen, hnot, hincludes, rfl⟩ := Walk.step_eq_list_iff.1 hstep
    have hhere : folder.here ∈ (Walk.tree fs place sizeLimit).nodes :=
      Tree.map_subtrees _ ▸ List.mem_map_of_mem hfolder
    exact ⟨entry, found, seen, ⟨⟨folder.here, hhere, hisFolder, inner, name, hread, hentry, rfl⟩,
      hjudged, hseen, hnot⟩, hincludes, rfl⟩
  · rintro ⟨entry, found, seen, ⟨⟨above, habove, hisFolder, inner, name, hread, hentry, hpath⟩,
      hjudged, hseen, hnot⟩, hincludes, hnode⟩
    rw [← Tree.map_subtrees] at habove
    obtain ⟨folder, hfolder, rfl⟩ := List.mem_map.1 habove
    rw [hpath] at hseen hincludes
    have hstep : Walk.step fs sizeLimit inner
        (Walk.location (pathOf place) (Path.child folder.here.path name)) name entry =
          .list seen.size :=
      Walk.step_eq_list_iff.2 ⟨hjudged, found, seen, hseen, hnot, hincludes, rfl⟩
    obtain ⟨hchild, -⟩ := (Walk.mem_children_iff hplace hfolder).2
      ⟨hisFolder, inner, name, entry, seen.size, hread, hentry, hstep, rfl⟩
    rw [hnode, hpath]
    exact List.mem_filter.2 ⟨Tree.here_mem_nodes_of_mem_children hfolder hchild, rfl⟩

omit hfs in
theorem Follows.listed_iff (h : Follows fs checkout path entry found seen) :
    (∃ node ∈ checkout.files, node.path = path) ↔
      Filter.includes fs (Walk.location checkout.root path) (some (seen.size : Int)) sizeLimit =
        true := by
  constructor
  · rintro ⟨node, hnode, rfl⟩
    obtain ⟨other, place, entry, hother, hincludes, -⟩ := (mem_files_iff hwalk).1 hnode
    obtain ⟨-, rfl⟩ := Prod.mk.inj (Except.ok.inj (hother.leadsTo.symm.trans h.leadsTo))
    exact hincludes
  · intro hincludes
    exact ⟨{ path, size := seen.size },
      (mem_files_iff hwalk).2 ⟨entry, found, seen, h, hincludes, rfl⟩, rfl⟩

/-- The bytes decide about what is opened, and the name and the size about all else. -/
theorem Follows.listed_iff_ite (h : Follows fs checkout path entry found seen) :
    (∃ node ∈ checkout.files, node.path = path) ↔
      if Filter.looksInto (Path.name path) seen.size sizeLimit then
        ∃ bytes, fs.readBytes (Walk.location checkout.root path) = .ok bytes ∧
          Filter.looksBinary (bytes.take Filter.sampleSize) = false
      else Filter.listsByName (Path.name path) seen.size sizeLimit = true := by
  rw [h.listed_iff hwalk, ← h.meets.name_location hfs]
  split
  · next hlooks =>
    rw [Filter.includes_of_looksInto hlooks]
    cases fs.readBytes (Walk.location checkout.root path) <;> simp
  · next hlooks => rw [Filter.includes_of_not_looksInto (Bool.not_eq_true _ ▸ hlooks)]

/-- Only links are listed or opened for what is not a regular file. -/
theorem Follows.cases (h : Follows fs checkout path entry found seen) :
    seen.isFile = true ∨ seen = .pipe ∧ ∃ text, entry = .link text := by
  obtain ⟨-, -, -, place, hresolve, rfl⟩ := walk_eq_ok_iff.1 hwalk
  have hplace := entry?_of_resolve hresolve
  obtain ⟨⟨folder, hfolder, -, inner, name, hread, hentry, rfl⟩, hjudged, hleads, hnot⟩ := h
  rcases hfs.cases_of_resolve hleads with ⟨bytes, rfl⟩ | rfl | rfl
  · exact .inl rfl
  · exact nomatch hnot
  · cases hlink : entry.isLink with
    | true =>
      cases entry with
      | link text => exact .inr ⟨rfl, text, rfl⟩
      | file | folder | pipe => exact nomatch hlink
    | false =>
      have hpath := (@Walk.ordered_tree fs sizeLimit place hfs hplace).isName_of_mem
        (fun name hname => nomatch hname) folder hfolder
      obtain ⟨-, rfl⟩ :=
        Walk.resolve_child_of_not_link hfs hplace hpath hread hentry hlink hleads
      exact hjudged.elim (fun h => nomatch h) fun h => nomatch h

/-- The folders that a file of a walk stands in have names that are not ignored. -/
theorem shown_of_mem_files {node : Node} (h : node ∈ checkout.files) :
    ∀ name ∈ node.names.dropLast, Filter.isIgnoredFolder name = false := by
  obtain ⟨-, -, -, place, hresolve, rfl⟩ := walk_eq_ok_iff.1 hwalk
  have hplace := entry?_of_resolve hresolve
  obtain ⟨after, hlisted⟩ := @Walk.exists_listedBelow fs sizeLimit place hplace
  obtain ⟨hnode, hfile⟩ := List.mem_filter.1 h
  rcases List.mem_cons.1 hnode with rfl | hnode
  · exact nomatch hfile
  cases hread : Walk.folderAt? fs (Walk.location (pathOf place) "") with
  | none =>
    have hnil : Tree.nodesOf (Walk.tree fs place sizeLimit).children = [] := by
      rw [((Walk.listedBelow_iff_of_closed hread).1 hlisted).1]
      rfl
    exact absurd (hnil ▸ hnode) List.not_mem_nil
  | some found =>
    exact ((Walk.listedBelow_iff_of_read hread).1 hlisted).shown hfs (List.Subset.refl _)
      (fun name hname => nomatch hname) node hnode

theorem visible_of_mem_files {node : Node} (h : node ∈ checkout.files) :
    Visible fs sizeLimit checkout node := by
  obtain ⟨entry, found, seen, hfollows, hincludes, hnode⟩ := (mem_files_iff hwalk).1 h
  have hsize : node.size = seen.size := by rw [hnode]
  unfold Filter.includes at hincludes
  rw [hfollows.meets.name_location hfs] at hincludes
  dsimp only at hincludes
  split at hincludes
  · exact nomatch hincludes
  next hshown =>
  split at hincludes
  · exact nomatch hincludes
  next hlimit =>
  refine ⟨by simpa [Node.name] using hshown, shown_of_mem_files hfs hwalk h, found, seen,
    hfollows.leadsTo, hsize, by omega, ?_⟩
  rcases hfollows.cases hfs hwalk with hfile | ⟨hpipe, text, rfl⟩
  · exact .inl hfile
  · exact .inr ⟨hpipe, text, hfollows.meets⟩

end Walked

/-- A walk lists and opens nothing but regular files. -/
def Regular (fs : FileSystem) (sizeLimit : Int) (checkout : Checkout) : Prop :=
  (∀ node ∈ checkout.files, ∃ found seen,
    fs.resolve (Walk.location checkout.root node.path) = .ok (found, seen) ∧ seen.isFile = true) ∧
  ∀ ⦃path seen⦄, Opens fs sizeLimit checkout path seen → seen.isFile = true

/-- No link to a pipe is listed or opened, as they are all turned away, if nothing but regular files is.
-/
theorem turnsAway_of_regular (hfs : fs.WellFormed) (hwalk : walk fs root sizeLimit = .ok checkout)
    (h : Regular fs sizeLimit checkout) (hfollows : Follows fs checkout path entry found .pipe) :
    Filter.turnsAway (Path.name path) 0 sizeLimit = true := by
  obtain ⟨hfiles, hopens⟩ := h
  have hlooks : Filter.looksInto (Path.name path) 0 sizeLimit = false :=
    Bool.eq_false_iff.2 fun hlooks => nomatch hopens ⟨entry, found, hfollows, hlooks⟩
  have hlisted := hfollows.listed_iff_ite hfs hwalk
  rw [if_neg (by simpa [Entry.size] using hlooks)] at hlisted
  refine Filter.turnsAway_iff.2 ⟨hlooks, Bool.eq_false_iff.2 fun hlists => ?_⟩
  obtain ⟨node, hnode, rfl⟩ := hlisted.2 hlists
  obtain ⟨other, seen, hother, hfile⟩ := hfiles node hnode
  obtain ⟨-, rfl⟩ := Prod.mk.inj (Except.ok.inj (hfollows.leadsTo.symm.trans hother))
  exact nomatch hfile

/-- Every walk lists visible files, and the bytes decide about a file only if it is opened. It lists and
opens nothing but regular files exactly if every link to a pipe that it comes to is turned away by its
name. -/
theorem visible_of_walk (hfs : fs.WellFormed) (hwalk : walk fs root sizeLimit = .ok checkout) :
    (∀ node ∈ checkout.files, Visible fs sizeLimit checkout node) ∧
    (∀ ⦃path entry found seen⦄, Follows fs checkout path entry found seen →
      ((∃ node ∈ checkout.files, node.path = path) ↔
        if Filter.looksInto (Path.name path) seen.size sizeLimit then
          ∃ bytes, fs.readBytes (Walk.location checkout.root path) = .ok bytes ∧
            Filter.looksBinary (bytes.take Filter.sampleSize) = false
        else Filter.listsByName (Path.name path) seen.size sizeLimit = true)) ∧
    (Regular fs sizeLimit checkout ↔ ∀ ⦃path text found⦄,
      Follows fs checkout path (.link text) found .pipe →
        Filter.turnsAway (Path.name path) 0 sizeLimit = true) := by
  refine ⟨fun node hnode => visible_of_mem_files hfs hwalk hnode,
    fun _ _ _ _ hfollows => hfollows.listed_iff_ite hfs hwalk,
    fun hregular _ _ _ hfollows => turnsAway_of_regular hfs hwalk hregular hfollows,
    fun hpipes => ⟨fun node hnode => ?_, ?_⟩⟩
  · obtain ⟨entry, found, seen, hfollows, -⟩ := (mem_files_iff hwalk).1 hnode
    rcases hfollows.cases hfs hwalk with hfile | ⟨rfl, text, rfl⟩
    · exact ⟨found, seen, hfollows.leadsTo, hfile⟩
    · obtain ⟨hlooks, hlists⟩ := Filter.turnsAway_iff.1 (hpipes hfollows)
      have hlisted := (hfollows.listed_iff_ite hfs hwalk).1 ⟨node, hnode, rfl⟩
      rw [if_neg (by simpa [Entry.size] using hlooks)] at hlisted
      exact nomatch hlists.symm.trans hlisted
  · rintro path seen ⟨entry, found, hfollows, hlooks⟩
    rcases hfollows.cases hfs hwalk with hfile | ⟨rfl, text, rfl⟩
    · exact hfile
    · exact nomatch (Filter.turnsAway_iff.1 (hpipes hfollows)).1.symm.trans hlooks

/-- Without pipes nothing but regular files is listed and opened. -/
theorem visible_of_walk_linked : linked.WellFormed ∧ ∃ checkout, walk linked "repo" = .ok checkout ∧
    checkout.files.map (·.path) = ["lib/pom.xml", "src/package.json"] ∧
    (∀ node ∈ checkout.files, Visible linked Filter.defaultSizeLimit checkout node) ∧
    Regular linked Filter.defaultSizeLimit checkout := by
  have hfs : linked.WellFormed := by decide
  obtain ⟨hvisible, -, hregular⟩ := visible_of_walk hfs walk_linked
  refine ⟨hfs, _, walk_linked, ?_, hvisible, hregular.2 fun path text found hfollows => ?_⟩
  · rw [files, tree_linked]
    rfl
  · have hentry := entry?_of_resolve hfollows.leadsTo
    have hne : found ≠ [] := by
      rintro rfl
      exact nomatch hentry
    have hnone : ∀ inside ∈ linked.entries, inside.2 ≠ .pipe := by decide
    exact absurd rfl (hnone _ (mem_entries_of_found hentry hne))

/-! ### Links to pipes -/

/-- A repository with two links to a pipe outside of it. -/
def piped : FileSystem where
  entries := [(["pipe"], .pipe), (["repo"], .folder), (["repo", "notes"], .link "../pipe"),
    (["repo", "package.json"], .link "../pipe")]

/-- A link to a pipe is listed if it has the name of a manifest, and the pipe is opened if the name says
nothing. -/
theorem walk_lists_pipe : piped.WellFormed ∧ ∃ checkout, walk piped "repo" = .ok checkout ∧
    (∃ node ∈ checkout.files, node.path = "package.json" ∧
      piped.resolve (Walk.location checkout.root node.path) = .ok (["pipe"], .pipe)) ∧
    Opens piped Filter.defaultSizeLimit checkout "notes" .pipe ∧
    ¬ Regular piped Filter.defaultSizeLimit checkout := by
  have hfs : piped.WellFormed := by decide
  have hroot : piped.resolve (Path.tidy "repo") = .ok (["repo"], .folder) :=
    resolve_of_within 9 (by decide) (by decide)
  have hfolder : piped.isFolder (Path.tidy "repo") = .ok true :=
    isFolder_eq_true_iff.2 ⟨by cbv, ["repo"], hroot⟩
  have hwalk : walk piped "repo" =
      .ok { root := "/repo", tree := Walk.tree piped ["repo"] Filter.defaultSizeLimit } :=
    walk_eq_ok_iff.2 ⟨by decide, by decide, hfolder, ["repo"], hroot, rfl⟩
  have hread : Walk.folderAt? piped "/repo" = some ["repo"] :=
    Walk.folderAt?_eq_some_iff.2 (resolve_of_within 9 (by decide) (by decide))
  have hfollows (name : String) (hentry : piped.entry? ["repo", name] = some (.link "../pipe"))
      (hresolve : piped.resolve (Walk.location "/repo" name) = .ok (["pipe"], .pipe)) :
      Follows piped { root := "/repo", tree := Walk.tree piped ["repo"] Filter.defaultSizeLimit }
        name (.link "../pipe") ["pipe"] .pipe :=
    ⟨⟨_, List.mem_cons_self, rfl, ["repo"], name, hread, hfs.mem_listing_iff.2 hentry, rfl⟩, .inr rfl,
      hresolve, rfl⟩
  have hmanifest : piped.resolve "/repo/package.json" = .ok (["pipe"], .pipe) :=
    resolve_of_within 9 (by decide) (by decide)
  have hnotes : piped.resolve "/repo/notes" = .ok (["pipe"], .pipe) :=
    resolve_of_within 9 (by decide) (by decide)
  have hopens : Opens piped Filter.defaultSizeLimit
      { root := "/repo", tree := Walk.tree piped ["repo"] Filter.defaultSizeLimit } "notes" .pipe :=
    ⟨_, _, hfollows "notes" (by decide) hnotes, by decide⟩
  have hlisted := ((hfollows "package.json" (by decide) hmanifest).listed_iff hwalk).2
    (by decide)
  obtain ⟨node, hnode, hpath⟩ := hlisted
  refine ⟨hfs, _, hwalk, ⟨node, hnode, hpath, ?_⟩, hopens, fun hregular => ?_⟩
  · rw [hpath]
    exact hmanifest
  · cases hregular.2 hopens

end Checkout

end CodeReview
