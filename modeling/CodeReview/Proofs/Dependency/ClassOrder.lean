import CodeReview.Proofs.Dependency.ClassIndex
import CodeReview.Proofs.Repository.Linkless

/-!
# Which file a class is looked up as

The index of classes goes through a folder's own files before it goes into its folders, and a walk goes
through both together, by name. Where several files have one name, the two may come to another one first.

* `JavaFile`: without links, what the index has (`javaFile_of_mem`, `mem_of_javaFile`).
* `IsOutermost`: the first file on the way down to another.
* `javaClass?_of_walk`: a class is looked up as the outermost file on the way to the first that a walk
  lists.
-/

namespace CodeReview.Dependency

open Text FileSystem

namespace Sources

/-! ## The files of the index -/

/-- A Java file in a folder that is reached by way of folders whose names are not ignored. -/
structure JavaFile (fs : FileSystem) (place : Place) (folder file : String) : Prop where
  shown : ShownFolder fs place folder
  there : ∃ entry, fs.entry? (place ++ namesIn folder ++ [file]) = some entry ∧ entry.isFolder = false
  java : endsWith ".java" file = true

section Files

variable {fs : FileSystem} {root path folder file : String} {place : Place}
  (hfs : fs.WellFormed) (hroot : fs.resolve (Path.tidy root) = .ok (place, .folder))
  (hlinks : fs.Linkless place)
include hroot hlinks

/-- The folder that a path leads to is the one that it spells. -/
theorem place_of_folderAt? {found : Place} (hnames : ∀ name ∈ namesIn path, IsName name)
    (h : Walk.folderAt? fs (Walk.location (Path.tidy root) path) = some found) :
    found = place ++ namesIn path := by
  have hfound := resolveFrom_of_location hnames (Walk.folderAt?_eq_some_iff.1 h)
  obtain ⟨-, left, -, hrest⟩ := exists_left_of_resolveFrom (resolveFrom_start hroot)
  exact hlinks.place_eq hnames ((hrest 0 (namesIn path)).symm.trans hfound)

include hfs

theorem folderAt?_of_shown (h : ShownFolder fs place path)
    (hshort : (Walk.location (Path.tidy root) path).utf8ByteSize < pathLimit) :
    Walk.folderAt? fs (Walk.location (Path.tidy root) path) = some (place ++ namesIn path) := by
  obtain ⟨left, -, hfound⟩ := resolve_location_tidy hroot (h.isName hfs) hshort
  rw [hlinks.resolveFrom_eq hfs (h.entry?_eq hfs (entry?_of_resolve hroot))] at hfound
  exact Walk.folderAt?_eq_some_iff.2 hfound

/-- What is in the index below a shown folder is a Java file. -/
theorem javaFile_of_mem {depth : Nat} (hpath : ShownFolder fs place path)
    (h : (folder, file) ∈ classFilesBelow fs (Path.tidy root) depth path) :
    JavaFile fs place folder file := by
  induction depth generalizing path with
  | zero => cases h
  | succ depth ih =>
    rw [classFilesBelow] at h
    split at h
    · cases h
    · next found hread =>
      obtain rfl := place_of_folderAt? hroot hlinks (hpath.isName hfs) hread
      rcases List.mem_append.1 h with h | h
      · obtain ⟨⟨name, entry⟩, hlisted, hsame⟩ := List.mem_map.1 h
        obtain ⟨rfl, rfl⟩ := Prod.mk.inj hsame
        obtain ⟨hlisted, hkept⟩ := List.mem_filter.1 hlisted
        obtain ⟨hjava, hentry⟩ := Bool.and_eq_true_iff.1 hkept
        refine ⟨hpath, ⟨entry, hfs.mem_listing_iff.1 hlisted, ?_⟩, hjava⟩
        cases entry with
        | folder => cases hentry
        | file | link | pipe => rfl
      · obtain ⟨⟨name, entry⟩, hlisted, hbelow⟩ := List.mem_flatMap.1 h
        obtain ⟨hlisted, hkept⟩ := List.mem_filter.1 hlisted
        obtain ⟨hfolder, hshown⟩ := Bool.and_eq_true_iff.1 hkept
        cases entry with
        | file | link | pipe => cases hfolder
        | folder =>
          exact ih (hpath.child (hfs.mem_listing_iff.1 hlisted) (by simpa using hshown)) hbelow

/-- The index below a shown folder is part of the index below the top, with as much more depth as the
folder is deep. -/
theorem classFilesBelow_subset (h : ShownFolder fs place path)
    (hshort : (Walk.location (Path.tidy root) path).utf8ByteSize < pathLimit) (depth : Nat) :
    classFilesBelow fs (Path.tidy root) depth path ⊆
      classFilesBelow fs (Path.tidy root) (depth + (namesIn path).length) "" := by
  induction h generalizing depth with
  | top => exact List.Subset.refl _
  | @child path name h hfolder hshown ih =>
    have hname := ShownFolder.isName_of_there hfs hfolder
    have hpath := Nat.lt_of_le_of_lt (size_location_le (h.isName hfs) hname) hshort
    have hread := folderAt?_of_shown hfs hroot hlinks h hpath
    refine List.Subset.trans (fun found hfound => ?_) (List.Subset.trans (ih hpath (depth + 1)) ?_)
    · rw [classFilesBelow, hread]
      refine List.mem_append_right _ (List.mem_flatMap.2 ⟨(name, .folder), ?_, hfound⟩)
      exact List.mem_filter.2 ⟨hfs.mem_listing_iff.2 hfolder, by simpa [Entry.isFolder] using hshown⟩
    · rw [namesIn_child hname, List.length_append, List.length_singleton, Nat.add_assoc, Nat.add_comm 1]
      exact List.Subset.refl _

omit hlinks in
/-- A shown folder is less deep than there are folders. -/
theorem length_lt_folderCount (h : ShownFolder fs place path) :
    (namesIn path).length < Walk.folderCount fs := by
  have hentered : Walk.Entered fs
      ((List.range ((namesIn path).length + 1)).map fun n => place ++ (namesIn path).take n) := by
    refine ⟨List.Nodup.map_on ?_ List.nodup_range, fun front hfront => ?_⟩
    · intro n hn m hm hsame
      have hlength := congrArg List.length (List.append_cancel_left hsame)
      rw [List.length_take, List.length_take] at hlength
      rw [List.mem_range] at hn hm
      omega
    · obtain ⟨n, -, rfl⟩ := List.mem_map.1 hfront
      refine or_iff_not_imp_left.2 fun hne => mem_entries_of_found ?_ hne
      have hpath := h.entry?_eq hfs (entry?_of_resolve hroot)
      by_cases hrest : (namesIn path).drop n = []
      · rwa [List.take_of_length_le (List.drop_eq_nil_iff.1 hrest)]
      · rw [← List.take_append_drop n (namesIn path), ← List.append_assoc] at hpath
        exact hfs.folder_of_append hpath hrest
  have hle := hentered.length_le
  rw [List.length_map, List.length_range] at hle
  exact hle

/-- Every Java file is in the index, if the path of its folder is not too long. -/
theorem mem_of_javaFile (h : JavaFile fs place folder file)
    (hshort : (Walk.location (Path.tidy root) folder).utf8ByteSize < pathLimit) :
    (folder, file) ∈ classFilesBelow fs (Path.tidy root) (Walk.folderCount fs) "" := by
  obtain ⟨depth, hdepth⟩ := Nat.exists_eq_add_of_lt (length_lt_folderCount hfs hroot h.shown)
  rw [hdepth, Nat.add_assoc, Nat.add_comm]
  refine classFilesBelow_subset hfs hroot hlinks h.shown hshort (depth + 1) ?_
  rw [classFilesBelow, folderAt?_of_shown hfs hroot hlinks h.shown hshort]
  obtain ⟨entry, hentry, hfile⟩ := h.there
  refine List.mem_append_left _ (List.mem_map.2 ⟨(file, entry), List.mem_filter.2 ⟨?_, ?_⟩, rfl⟩)
  · exact hfs.mem_listing_iff.2 hentry
  · have hlink := (hlinks.below (namesIn folder)).isLink_eq hentry
    cases entry with
    | folder => cases hfile
    | link => cases hlink
    | file | pipe => simpa [isFolderEntry] using h.java

end Files

/-! ## First files -/

section First

variable {names other : List String} {last : String}

/-- Of two folders, the one that comes first by itself is on the way to the other if a file in it does not
come before the file of that name in the other. -/
theorem prefix_of_not_lt (hfolder : ¬ other < names) (hfile : ¬ names ++ [last] < other ++ [last]) :
    names <+: other := by
  induction names generalizing other with
  | nil => exact List.nil_prefix
  | cons name names ih =>
    cases other with
    | nil => exact absurd (List.nil_lt_cons name names) hfolder
    | cons first other =>
      rw [List.cons_lt_cons_iff, not_or] at hfolder
      rw [List.cons_append, List.cons_append, List.cons_lt_cons_iff, not_or] at hfile
      obtain rfl := String.le_antisymm hfolder.1 hfile.1
      exact List.cons_prefix_cons.2 ⟨rfl, ih (fun hless => hfolder.2 ⟨rfl, hless⟩)
        fun hless => hfile.2 ⟨rfl, hless⟩⟩

/-- A folder on the way to another comes first by itself. -/
theorem lt_of_isPrefix (h : names <+: other) (hne : names ≠ other) : names < other := by
  obtain ⟨rest, rfl⟩ := h
  obtain ⟨next, rest, rfl⟩ := List.exists_cons_of_ne_nil fun hnil : rest = [] => hne (by simp [hnil])
  have hless : names ++ [] < names ++ next :: rest := List.append_left_lt (List.nil_lt_cons next rest)
  rwa [List.append_nil] at hless

/-- What is found first comes before everything else that may be found. -/
theorem eq_or_of_find? {α : Type} {r : α → α → Prop} {p : α → Bool} {items : List α} {first item : α}
    (hsorted : items.Pairwise r) (hfirst : items.find? p = some first) (hmem : item ∈ items)
    (hitem : p item = true) : item = first ∨ r first item := by
  obtain ⟨-, before, behind, rfl, hbefore⟩ := List.find?_eq_some_iff_append.1 hfirst
  rcases List.mem_append.1 hmem with hmem | hmem
  · have hnot := hbefore item hmem
    rw [hitem] at hnot
    exact nomatch hnot
  · rcases List.mem_cons.1 hmem with rfl | hmem
    · exact .inl rfl
    · exact .inr ((List.pairwise_cons.1 (List.pairwise_append.1 hsorted).2.1).1 item hmem)

end First

/-! ## What a class is looked up as -/

/-- A repository without links, in which a walk makes a file of every Java file. -/
structure Surveyed (fs : FileSystem) (place : Place) (sizeLimit : Int) : Prop where
  linkless : fs.Linkless place
  lists {folder file : String} {entry : Entry}
    (hentry : fs.entry? (place ++ namesIn folder ++ [file]) = some entry) (hfile : entry.isFolder = false)
    (hjava : endsWith ".java" file = true) : ∃ size, Walk.step fs sizeLimit (place ++ namesIn folder)
      (Walk.location (pathOf place) (Path.child folder file)) file entry = .list size

/-- The paths of a walk, in its order, that have the name of a class. -/
def classPaths (checkout : Checkout) (name : String) : List String :=
  (checkout.files.map (·.path)).filter fun path => Path.name path == name ++ ".java"

/-- The names of the folders on the way to a file. -/
def foldersTo (path : String) : List String := (namesIn path).dropLast

/-- Of some paths, the first on the way down to one of them. -/
structure IsOutermost (paths : List String) (path below : String) : Prop where
  mem : path ∈ paths
  above : foldersTo path <+: foldersTo below
  least : ∀ other ∈ paths, foldersTo other <+: foldersTo below → foldersTo path <+: foldersTo other

/-! ### Lengths of paths -/

theorem join_concat {parts : List (List Char)} (hne : parts ≠ []) :
    Chars.join ['/'] parts ++ ['/'] = parts.flatMap (· ++ ['/']) := by
  induction parts with
  | nil => exact absurd rfl hne
  | cons part parts ih =>
    by_cases hnone : parts = []
    · subst hnone
      simp [Chars.join, List.intercalate]
    · rw [Chars.join_cons hnone, List.append_assoc, ih hnone, List.flatMap_cons]

/-- A path is its names with a slash behind each but the last. -/
theorem toList_concat {path : String} (hne : path ≠ "") :
    path.toList ++ ['/'] = (namesIn path).flatMap fun name => name.toList ++ ['/'] := by
  have hjoin := join_concat (Chars.splitOn_ne_nil '/' path.toList)
  rw [Chars.join_splitOn] at hjoin
  rw [hjoin, namesIn, if_neg (by simpa using hne), components, splitOn, List.flatMap_map]
  exact List.flatMap_congr fun part _ => by simp

/-- The key of a file is not the path of one further down. -/
theorem eq_of_normalize_child {found folder file : String} (hname : IsName file)
    (habove : namesIn found <+: namesIn folder)
    (hkey : Path.normalize (Path.child found file) = Path.child folder file) : found = folder := by
  obtain ⟨rest, hrest⟩ := habove
  have hle := Path.length_normalize_le (Path.child found file)
  have hlength (folder : String) : (Path.child folder file).length + 1 =
      ((namesIn folder ++ [file]).flatMap fun name => name.toList ++ ['/']).length := by
    rw [← namesIn_child hname, ← toList_concat (child_ne_empty hname), List.length_append, String.length_toList,
      List.length_singleton]
  have hfound := hlength found
  have hfolder := hlength folder
  rw [hkey] at hle
  rw [← hrest] at hfolder
  cases rest with
  | nil =>
    rw [List.append_nil] at hrest
    exact eq_of_namesIn hrest
  | cons name rest =>
    simp only [List.flatMap_append, List.flatMap_cons, List.length_append, List.length_singleton] at hfound hfolder
    omega

section Walked

variable {sources : Sources} {checkout : Checkout} {sizeLimit : Int} {place : Place}
  {name path folder found file first : String}

theorem foldersTo_child (hname : IsName file) : foldersTo (Path.child folder file) = namesIn folder := by
  rw [foldersTo, namesIn_child hname, List.dropLast_concat]

variable (hfs : sources.fs.WellFormed)
  (hroot : sources.fs.resolve (Path.tidy sources.root) = .ok (place, .folder))
  (hwalk : Checkout.walk sources.fs sources.root sizeLimit = .ok checkout)
  (hsurveyed : Surveyed sources.fs place sizeLimit)
include hfs

omit hfs in
theorem JavaFile.isName (h : JavaFile sources.fs place folder file) (hfs : sources.fs.WellFormed) :
    IsName file := by
  obtain ⟨entry, hentry, -⟩ := h.there
  exact ShownFolder.isName_of_there hfs hentry

include hroot hwalk hsurveyed

/-- A walk lists the Java files of a repository that is surveyed. -/
theorem exists_node_of_javaFile (h : JavaFile sources.fs place folder file) :
    ∃ node ∈ checkout.files, node.path = Path.child folder file := by
  obtain ⟨entry, hentry, hfile⟩ := h.there
  obtain ⟨size, hstep⟩ := hsurveyed.lists hentry hfile h.java
  exact Checkout.exists_mem_files hfs hroot hwalk hsurveyed.linkless h.shown hentry hstep

theorem mem_classPaths_iff : path ∈ classPaths checkout name ↔
    ∃ folder, JavaFile sources.fs place folder (name ++ ".java") ∧
      path = Path.child folder (name ++ ".java") := by
  have hjava : endsWith ".java" (name ++ ".java") = true := by
    refine List.isSuffixOf_iff_suffix.2 ⟨name.toList, ?_⟩
    rw [String.toList_append]
  constructor
  · intro h
    obtain ⟨hmem, hname⟩ := List.mem_filter.1 h
    obtain ⟨node, hnode, rfl⟩ := List.mem_map.1 hmem
    obtain ⟨folder, file, entry, hshown, hpath, hentry, hfile⟩ :=
      Checkout.exists_of_mem_files hfs hroot hwalk hsurveyed.linkless hnode
    rw [hpath, name_child (ShownFolder.isName_of_there hfs hentry), beq_iff_eq] at hname
    subst hname
    exact ⟨folder, ⟨hshown, ⟨entry, hentry, hfile⟩, hjava⟩, hpath⟩
  · rintro ⟨folder, hfile, rfl⟩
    obtain ⟨node, hnode, hpath⟩ := exists_node_of_javaFile hfs hroot hwalk hsurveyed hfile
    refine List.mem_filter.2 ⟨hpath ▸ List.mem_map_of_mem hnode, ?_⟩
    rw [name_child (hfile.isName hfs), beq_self_eq_true]

omit hsurveyed in
theorem sorted_classPaths : (classPaths checkout name).Pairwise fun path other =>
    namesIn path < namesIn other := by
  obtain rfl := Checkout.eq_of_walk hroot hwalk
  have hordered := @Walk.ordered_tree sources.fs sizeLimit place hfs (entry?_of_resolve hroot)
  refine List.Pairwise.sublist List.filter_sublist (List.pairwise_map.2 ?_)
  exact hordered.sorted_nodes.sublist List.filter_sublist

/-- What the index has first stands on the way to what a walk has first. -/
theorem isOutermost_of_first (hindexed : ∀ folder, JavaFile sources.fs place folder (name ++ ".java") →
      folder = found ∨ namesIn found < namesIn folder)
    (hfound : JavaFile sources.fs place found (name ++ ".java"))
    (hfirst : (classPaths checkout name).head? = some first) :
    IsOutermost (classPaths checkout name) (Path.child found (name ++ ".java")) first := by
  have hmem {path : String} := @mem_classPaths_iff sources checkout sizeLimit place name path hfs hroot hwalk
    hsurveyed
  obtain ⟨rest, hpaths⟩ := List.head?_eq_some_iff.1 hfirst
  obtain ⟨folder, hfile, rfl⟩ := hmem.1 (hpaths ▸ List.mem_cons_self)
  have hname := hfile.isName hfs
  have hfoundMem := hmem.2 ⟨found, hfound, rfl⟩
  have habove : namesIn found <+: namesIn folder := by
    refine @prefix_of_not_lt _ _ (name ++ ".java") (fun hless => ?_) fun hless => ?_
    · rcases hindexed folder hfile with rfl | hless'
      · exact List.lt_irrefl _ hless
      · exact List.lt_asymm hless hless'
    · have hsorted := @sorted_classPaths sources checkout sizeLimit place name hfs hroot hwalk
      rw [hpaths] at hsorted hfoundMem
      rcases List.mem_cons.1 hfoundMem with hsame | hrest
      · have hnames := congrArg namesIn hsame
        rw [namesIn_child hname, namesIn_child hname] at hnames
        exact List.lt_irrefl _ (hnames ▸ hless)
      · have hless' := (List.pairwise_cons.1 hsorted).1 _ hrest
        rw [namesIn_child hname, namesIn_child hname] at hless'
        exact List.lt_asymm hless hless'
  refine ⟨hfoundMem, ?_, fun other hother hway => ?_⟩
  · rwa [foldersTo_child hname, foldersTo_child hname]
  · obtain ⟨between, hbetween, rfl⟩ := hmem.1 hother
    rw [foldersTo_child hname] at hway ⊢
    rw [foldersTo_child hname] at hway ⊢
    rcases hindexed between hbetween with rfl | hless
    · exact List.prefix_rfl
    · refine (List.prefix_or_prefix_of_prefix habove hway).resolve_right fun hup => ?_
      refine List.lt_asymm hless (lt_of_isPrefix hup ?_)
      rintro hsame
      exact List.lt_irrefl _ (hsame ▸ hless)

variable (hshort : ∀ node ∈ checkout.files,
  (Walk.location (Path.tidy sources.root) node.path).utf8ByteSize < pathLimit)
include hshort

/-- Every Java file of a surveyed repository is in the index. -/
theorem mem_index_of_javaFile (h : JavaFile sources.fs place folder file) : (folder, file) ∈
    classFilesBelow sources.fs (Path.tidy sources.root) (Walk.folderCount sources.fs) "" := by
  obtain ⟨node, hnode, hpath⟩ := exists_node_of_javaFile hfs hroot hwalk hsurveyed h
  have hle := @size_location_le file folder (Path.tidy sources.root) (h.shown.isName hfs) (h.isName hfs)
  rw [← hpath] at hle
  exact mem_of_javaFile hfs hroot hsurveyed.linkless h (Nat.lt_of_le_of_lt hle (hshort node hnode))

/-- A class has the first file of the index, if there is a file of its name. -/
theorem javaClass?_cases (name : String) :
    (sources.javaClass? name = none ∧
        ∀ folder, ¬ JavaFile sources.fs place folder (name ++ ".java")) ∨
      ∃ found, JavaFile sources.fs place found (name ++ ".java") ∧
        sources.javaClass? name = some (Path.normalize (Path.child found (name ++ ".java"))) ∧
        ∀ folder, JavaFile sources.fs place folder (name ++ ".java") →
          folder = found ∨ namesIn found < namesIn folder := by
  have hindex {folder : String} (h : JavaFile sources.fs place folder (name ++ ".java")) :=
    mem_index_of_javaFile hfs hroot hwalk hsurveyed hshort h
  have hjava {folder file : String} (h : JavaFile sources.fs place folder file) :
      (name == className file) = true ↔ file = name ++ ".java" := className_iff h.java
  rw [javaClass?_eq]
  cases hfind : (classFilesBelow sources.fs (Path.tidy sources.root) (Walk.folderCount sources.fs) "").find?
      fun found => name == className found.2 with
  | none =>
    refine .inl ⟨rfl, fun folder h => ?_⟩
    have hnot := List.find?_eq_none.1 hfind _ (hindex h)
    exact hnot ((hjava h).2 rfl)
  | some found =>
    obtain ⟨found, file⟩ := found
    have hmem := List.mem_of_find?_eq_some hfind
    have hfile := javaFile_of_mem hfs hroot hsurveyed.linkless .top hmem
    obtain rfl := (hjava hfile).1 (List.find?_eq_some_iff_append.1 hfind).1
    refine .inr ⟨found, hfile, rfl, fun folder h => ?_⟩
    have hsorted := sorted_classFilesBelow hfs (Path.tidy sources.root) (Walk.folderCount sources.fs) ""
    rcases eq_or_of_find? hsorted hfind (hindex h) ((hjava h).2 rfl) with hsame | hless | ⟨-, hless⟩
    · exact .inl (Prod.mk.inj hsame).1
    · exact .inr hless
    · exact absurd hless (String.lt_irrefl _)

/-- In a repository without links, in which a walk makes a file of every Java file, a class is looked up as
the key of the outermost file of its name on the way to the first that the walk lists, and as nothing if
there is none. So it is looked up as the first exactly if that is its own key and stands below no other. -/
theorem javaClass?_of_walk (name : String) :
    ((classPaths checkout name).head? = none → sources.javaClass? name = none) ∧
    (∀ first, (classPaths checkout name).head? = some first →
      ∃ path, IsOutermost (classPaths checkout name) path first ∧
        sources.javaClass? name = some (Path.normalize path)) ∧
    (sources.javaClass? name = (classPaths checkout name).head? ↔
      ∀ first ∈ (classPaths checkout name).head?, Path.normalize first = first ∧
        ∀ other ∈ classPaths checkout name, foldersTo other <+: foldersTo first → other = first) := by
  have hmem {path : String} := @mem_classPaths_iff sources checkout sizeLimit place name path hfs hroot hwalk
    hsurveyed
  have houtermost (first : String) (hfirst : (classPaths checkout name).head? = some first) :
      ∃ path, IsOutermost (classPaths checkout name) path first ∧
        sources.javaClass? name = some (Path.normalize path) := by
    rcases javaClass?_cases hfs hroot hwalk hsurveyed hshort name with ⟨-, hnone⟩ | ⟨found, hfound, hclass,
      hindexed⟩
    · obtain ⟨rest, hpaths⟩ := List.head?_eq_some_iff.1 hfirst
      obtain ⟨folder, hfile, -⟩ := hmem.1 (hpaths ▸ List.mem_cons_self)
      exact absurd hfile (hnone folder)
    · exact ⟨_, isOutermost_of_first hfs hroot hwalk hsurveyed hindexed hfound hfirst, hclass⟩
  have hnone (hempty : (classPaths checkout name).head? = none) : sources.javaClass? name = none := by
    rcases javaClass?_cases hfs hroot hwalk hsurveyed hshort name with ⟨hclass, -⟩ | ⟨found, hfound, -, -⟩
    · exact hclass
    · have hfoundMem := hmem.2 ⟨found, hfound, rfl⟩
      rw [List.head?_eq_none_iff.1 hempty] at hfoundMem
      exact nomatch hfoundMem
  refine ⟨hnone, houtermost, ?_⟩
  cases hfirst : (classPaths checkout name).head? with
  | none => exact iff_of_true (hnone hfirst) nofun
  | some first =>
    obtain ⟨path, hpath, hclass⟩ := houtermost first hfirst
    obtain ⟨rest, hpaths⟩ := List.head?_eq_some_iff.1 hfirst
    rw [hclass, Option.some.injEq]
    constructor
    · rintro hkey _ ⟨⟩
      obtain ⟨found, hfound, rfl⟩ := hmem.1 hpath.mem
      have hfirstMem : first ∈ classPaths checkout name := hpaths ▸ List.mem_cons_self
      obtain ⟨folder, hfile, rfl⟩ := hmem.1 hfirstMem
      have hname := hfile.isName hfs
      have habove := hpath.above
      rw [foldersTo_child hname, foldersTo_child hname] at habove
      obtain rfl := eq_of_normalize_child hname habove hkey
      refine ⟨hkey, fun other hother hway => ?_⟩
      have hleast := hpath.least other hother hway
      obtain ⟨between, -, rfl⟩ := hmem.1 hother
      rw [foldersTo_child hname, foldersTo_child hname] at hway hleast
      rw [eq_of_namesIn (hway.eq_of_length (Nat.le_antisymm hway.length_le hleast.length_le))]
    · intro h
      obtain ⟨hkey, honly⟩ := h first rfl
      rw [honly path hpath.mem hpath.above, hkey]

end Walked

/-! ### A class in a folder that comes before it -/

/-- A repository with two files of one class, one of them in a folder that comes before the other file. -/
def doubled : Sources where
  fs := { entries := [(["repo"], .folder), (["repo", "Api"], .folder), (["repo", "Api", "Base.java"], .file []),
    (["repo", "Base.java"], .file [])] }
  root := "/repo"

/-- What paths of `doubled` lead to. -/
def doubledPaths : List (String × Place × Entry) :=
  [("/repo", ["repo"], .folder), ("/repo/Api", ["repo", "Api"], .folder),
    ("/repo/Api/Base.java", ["repo", "Api", "Base.java"], .file []),
    ("/repo/Base.java", ["repo", "Base.java"], .file [])]

theorem resolve_doubled {path : String} {found : Place × Entry} (h : (path, found) ∈ doubledPaths) :
    doubled.fs.resolve path = .ok found :=
  resolve_of_known 5 (by decide) h

theorem folderAt?_doubled {path : String} {place : Place} (h : (path, place, .folder) ∈ doubledPaths) :
    Walk.folderAt? doubled.fs path = some place :=
  Walk.folderAt?_eq_some_iff.2 (resolve_doubled h)

theorem listing_doubled :
    doubled.fs.listing ["repo"] = [("Api", .folder), ("Base.java", .file [])] ∧
      doubled.fs.listing ["repo", "Api"] = [("Base.java", .file [])] := by
  constructor <;> cbv

/-- Both files are listed. -/
theorem step_doubled {path : String} {place : Place}
    (h : (path, place ++ ["Base.java"], .file []) ∈ doubledPaths) :
    Walk.step doubled.fs Filter.defaultSizeLimit place path "Base.java" (.file []) = .list 0 := by
  have hall : ∀ known ∈ doubledPaths, known.2.2.isFile = true →
      Filter.looksInto (Path.name known.1) 0 Filter.defaultSizeLimit = true ∧
        '\x00' ∉ known.1.toList := by
    decide
  obtain ⟨hlooks, hnull⟩ := hall _ h rfl
  refine Walk.step_eq_list_iff.2 ⟨.inl rfl, _, .file [], resolve_doubled h, rfl, ?_, rfl⟩
  have hsize : ((Entry.file []).size : Int) = 0 := rfl
  rw [hsize, Filter.includes_of_looksInto hlooks, readBytes, String.contains_char_eq,
    if_neg (by simpa using hnull), resolve_doubled h]
  rfl

theorem surveyed_doubled : Surveyed doubled.fs ["repo"] Filter.defaultSizeLimit := by
  refine ⟨fun names text hentry => ?_, fun {folder file entry} hentry hfile hjava => ?_⟩
  · have hall : ∀ inside ∈ doubled.fs.entries, inside.2.isLink = false := by decide
    exact nomatch hall _ (mem_entries_of_found hentry (by simp))
  · have hmem := mem_entries_of_found hentry (by simp)
    have hsplit {names : List String} {last : String}
        (h : ["repo"] ++ namesIn folder ++ [file] = ["repo"] ++ names ++ [last]) :
        namesIn folder = names ∧ file = last := by
      obtain ⟨hnames, hlast⟩ := List.append_inj' h rfl
      exact ⟨List.append_cancel_left hnames, List.head_eq_of_cons_eq hlast⟩
    simp only [doubled, List.mem_cons, Prod.mk.injEq, List.not_mem_nil, or_false] at hmem
    rcases hmem with ⟨-, rfl⟩ | ⟨-, rfl⟩ | ⟨hpath, rfl⟩ | ⟨hpath, rfl⟩
    · exact nomatch hfile
    · exact nomatch hfile
    · obtain ⟨hnames, rfl⟩ := @hsplit ["Api"] "Base.java" hpath
      obtain rfl := @eq_of_namesIn folder "Api" hnames
      exact ⟨0, step_doubled (by decide)⟩
    · obtain ⟨hnames, rfl⟩ := @hsplit [] "Base.java" hpath
      obtain rfl := eq_empty_of_namesIn hnames
      exact ⟨0, step_doubled (by decide)⟩

theorem tree_doubled : Walk.tree doubled.fs ["repo"] Filter.defaultSizeLimit =
    .node { path := "", isFolder := true } [
      .node { path := "Api", isFolder := true } [.node { path := "Api/Base.java" } []],
      .node { path := "Base.java" } []] := by
  obtain ⟨htop, hinner⟩ := listing_doubled
  have hbelow : Walk.Listed doubled.fs Filter.defaultSizeLimit "/repo" ["repo", "Api"] "Api"
      (doubled.fs.listing ["repo", "Api"]) [["repo", "Api"], ["repo"]]
      [.node { path := "Api/Base.java" } []] [["repo", "Api"], ["repo"]] := by
    rw [hinner]
    exact .list (step_doubled (by decide)) .nil
  have hwalk : Walk.Listed doubled.fs Filter.defaultSizeLimit "/repo" ["repo"] ""
      (doubled.fs.listing ["repo"]) [["repo"]]
      [.node { path := "Api", isFolder := true } [.node { path := "Api/Base.java" } []],
        .node { path := "Base.java" } []] [["repo", "Api"], ["repo"]] := by
    have henter : Walk.step doubled.fs Filter.defaultSizeLimit ["repo"] "/repo/Api" "Api" .folder =
        .enter ["repo", "Api"] := Walk.step_eq_enter_iff.2 ⟨by decide, .inl ⟨rfl, rfl⟩⟩
    rw [htop]
    exact .enter henter (by decide) (folderAt?_doubled (by decide)) hbelow
      (.list (step_doubled (by decide)) .nil)
  obtain ⟨after, hlisted⟩ := @Walk.exists_listedBelow doubled.fs Filter.defaultSizeLimit ["repo"] rfl
  have hread : Walk.folderAt? doubled.fs "/repo" = some ["repo"] := folderAt?_doubled (by decide)
  replace hlisted := (Walk.listedBelow_iff_of_read hread).1 hlisted
  exact congrArg (Tree.node _) (hwalk.unique hlisted).1

theorem walk_doubled : Checkout.walk doubled.fs doubled.root =
    .ok { root := "/repo", tree := Walk.tree doubled.fs ["repo"] Filter.defaultSizeLimit } := by
  have hresolve : doubled.fs.resolve (Path.tidy doubled.root) = .ok (["repo"], .folder) :=
    resolve_doubled (by decide)
  refine Checkout.walk_eq_ok_iff.2 ⟨by decide, by decide, ?_, ["repo"], hresolve, rfl⟩
  exact isFolder_eq_true_iff.2 ⟨by cbv, _, hresolve⟩

theorem classFilesBelow_doubled : classFilesBelow doubled.fs "/repo" 3 "" =
    [("", "Base.java"), ("Api", "Base.java")] := by
  obtain ⟨htop, hinner⟩ := listing_doubled
  have hread : Walk.folderAt? doubled.fs (Walk.location "/repo" "") = some ["repo"] :=
    folderAt?_doubled (by decide)
  have hreadBelow : Walk.folderAt? doubled.fs (Walk.location "/repo" "Api") = some ["repo", "Api"] :=
    folderAt?_doubled (by decide)
  have hjava : endsWith ".java" "Base.java" = true ∧ Filter.isIgnoredFolder "Api" = false := by
    decide
  have hchild : Path.child "" "Api" = "Api" := by decide
  have hinside : classFilesBelow doubled.fs "/repo" 2 "Api" = [("Api", "Base.java")] := by
    rw [classFilesBelow, hreadBelow]
    dsimp only
    rw [hinner]
    simp only [List.filter_cons, List.filter_nil, isFolderEntry, hjava, Entry.isFolder, Bool.not_false,
      Bool.and_true, Bool.false_and, if_true, Bool.false_eq_true, if_false, List.map_cons, List.map_nil,
      List.flatMap_nil, List.append_nil]
  rw [classFilesBelow, hread]
  dsimp only
  rw [htop]
  simp only [List.filter_cons, List.filter_nil, isFolderEntry, hjava, Entry.isFolder, Bool.not_false,
    Bool.not_true, Bool.and_true, Bool.and_false, Bool.false_and, if_true, Bool.false_eq_true, if_false,
    List.map_cons, List.map_nil, List.flatMap_cons, List.flatMap_nil, List.append_nil, hchild, hinside]
  rfl

theorem classPaths_doubled : classPaths
    { root := "/repo", tree := Walk.tree doubled.fs ["repo"] Filter.defaultSizeLimit } "Base" =
      ["Api/Base.java", "Base.java"] := by
  rw [classPaths, Checkout.files, tree_doubled]
  decide

/-- The outer file stands on the way to the one that the walk lists first, and there is no other class. -/
theorem javaClass?_of_walk_doubled : doubled.fs.WellFormed ∧
    doubled.fs.resolve (Path.tidy doubled.root) = .ok (["repo"], .folder) ∧
    Surveyed doubled.fs ["repo"] Filter.defaultSizeLimit ∧ ∃ checkout,
      Checkout.walk doubled.fs doubled.root = .ok checkout ∧
        (∀ node ∈ checkout.files,
          (Walk.location (Path.tidy doubled.root) node.path).utf8ByteSize < pathLimit) ∧
        doubled.javaClass? "Base" = some "Base.java" ∧ doubled.javaClass? "Api" = none := by
  have hfs : doubled.fs.WellFormed := by decide
  have hroot : doubled.fs.resolve (Path.tidy doubled.root) = .ok (["repo"], .folder) :=
    resolve_doubled (by decide)
  have hshort : ∀ node ∈ Checkout.files
      { root := "/repo", tree := Walk.tree doubled.fs ["repo"] Filter.defaultSizeLimit },
      (Walk.location (Path.tidy doubled.root) node.path).utf8ByteSize < pathLimit := by
    rw [Checkout.files, tree_doubled]
    decide
  refine ⟨hfs, hroot, surveyed_doubled, _, walk_doubled, hshort, ?_, ?_⟩
  · obtain ⟨path, houtermost, hclass⟩ :=
      (javaClass?_of_walk hfs hroot walk_doubled surveyed_doubled hshort "Base").2.1 "Api/Base.java"
        (by rw [classPaths_doubled]; rfl)
    have hmem := houtermost.mem
    have hleast := houtermost.least "Base.java" (by rw [classPaths_doubled]; decide) (by decide)
    rw [classPaths_doubled] at hmem
    rcases List.mem_cons.1 hmem with rfl | hmem
    · exact absurd hleast (by decide)
    · rw [hclass, List.mem_singleton.1 hmem]
      decide
  · refine (javaClass?_of_walk hfs hroot walk_doubled surveyed_doubled hshort "Api").1 ?_
    rw [classPaths, Checkout.files, tree_doubled]
    decide

/-- The walk lists one file of the class first, and the class is looked up as the other. -/
theorem javaClass?_not_first : doubled.fs.WellFormed ∧
    Surveyed doubled.fs ["repo"] Filter.defaultSizeLimit ∧ ∃ checkout,
      Checkout.walk doubled.fs doubled.root = .ok checkout ∧
        (classPaths checkout "Base").head? = some "Api/Base.java" ∧
        doubled.javaClass? "Base" = some "Base.java" := by
  refine ⟨by decide, surveyed_doubled, _, walk_doubled, ?_, ?_⟩
  · rw [classPaths_doubled]
    rfl
  · have hroot : Path.tidy doubled.root = "/repo" := by decide
    have hcount : Walk.folderCount doubled.fs = 3 := rfl
    rw [javaClass?_eq, hroot, hcount, classFilesBelow_doubled]
    decide

end Sources

end CodeReview.Dependency
