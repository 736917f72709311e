import CodeReview.Proofs.FileSystem.Locations
import CodeReview.Proofs.Repository.Visibility

/-!
# Repositories without links

Where no links stand, names lead to the place that they spell (`Linkless.place_eq`), so every folder has
one path, and a walk comes to it under that one.

* `ShownFolder`: the folders that are reached by way of folders whose names are not ignored.
* `exists_of_mem_files`: what a walk lists stands in such a folder.
* `exists_mem_files`: an entry of such a folder is listed, if the walk makes a file of it.
-/

namespace CodeReview

open FileSystem Text

namespace FileSystem

variable {fs : FileSystem} {place root found next : Place} {names front : List String} {links left : Nat}
  {entry : Entry} {name path : String}

/-! ## Names without links -/

/-- No link stands at a place or below. -/
def Linkless (fs : FileSystem) (place : Place) : Prop :=
  ∀ names text, fs.entry? (place ++ names) ≠ some (.link text)

namespace Linkless

theorem below (h : fs.Linkless place) (names : List String) : fs.Linkless (place ++ names) := by
  intro more text
  rw [List.append_assoc]
  exact h (names ++ more) text

theorem isLink_eq (h : fs.Linkless place) (hentry : fs.entry? (place ++ names) = some entry) :
    entry.isLink = false := by
  cases entry with
  | link text => exact absurd hentry (h names text)
  | file | folder | pipe => rfl

/-- A name leads to its place. -/
theorem follow_eq (h : fs.Linkless place) (hname : IsName name)
    (hfollow : fs.follow links place name = .ok (left, next, front)) :
    next = place ++ [name] ∧ front = [] := by
  cases (follow_eq_ok_iff.1 hfollow).2 with
  | here hhere => exact absurd hhere (not_or.2 ⟨hname.ne_empty, hname.ne_here⟩)
  | parent hparent => exact absurd hparent hname.ne_parent
  | entry => exact ⟨rfl, rfl⟩
  | link _ hentry => exact absurd hentry (h [name] _)

/-- Names lead to the place that they spell. -/
theorem place_eq (h : fs.Linkless place) (hnames : ∀ name ∈ names, IsName name)
    (hfound : fs.resolveFrom links place names = .ok (found, entry)) : found = place ++ names := by
  induction names generalizing links place with
  | nil =>
    rw [resolveFrom_nil] at hfound
    split at hfound
    · exact nomatch hfound
    · rw [List.append_nil]
      exact (Prod.mk.inj (Except.ok.inj hfound)).1.symm
  | cons name names ih =>
    obtain ⟨hname, hnames⟩ := List.forall_mem_cons.1 hnames
    rw [resolveFrom_cons] at hfound
    cases hfollow : fs.follow links place name with
    | error error =>
      rw [hfollow] at hfound
      exact nomatch hfound
    | ok result =>
      obtain ⟨left, next, front⟩ := result
      rw [hfollow] at hfound
      obtain ⟨rfl, rfl⟩ := h.follow_eq hname hfollow
      rw [ih (h.below [name]) hnames hfound, List.append_assoc, List.singleton_append]

/-- What stands at a place is found by its names. -/
theorem resolveFrom_eq (h : fs.Linkless place) (hfs : fs.WellFormed)
    (hentry : fs.entry? (place ++ names) = some entry) (links : Nat) :
    fs.resolveFrom links place names = .ok (place ++ names, entry) := by
  induction names generalizing place with
  | nil =>
    rw [List.append_nil] at hentry ⊢
    rw [resolveFrom_nil, hentry]
  | cons name names ih =>
    rw [List.append_cons] at hentry ⊢
    have hfirst : ∃ first, fs.entry? (place ++ [name]) = some first := by
      cases names with
      | nil => exact ⟨entry, by rwa [List.append_nil] at hentry⟩
      | cons other names => exact ⟨_, hfs.folder_of_append hentry (List.cons_ne_nil other names)⟩
    obtain ⟨first, hfirst⟩ := hfirst
    rw [resolveFrom_cons, hfs.follow_entry hfirst (h.isLink_eq hfirst)]
    exact ih (h.below [name]) hentry

end Linkless

/-! ## Paths -/

/-- A path below a folder is told by its names. -/
theorem eq_of_namesIn {other : String} (h : namesIn path = namesIn other) : path = other := by
  by_cases hempty : path = ""
  · subst hempty
    exact (eq_empty_of_namesIn h.symm).symm
  by_cases hother : other = ""
  · subst hother
    exact eq_empty_of_namesIn h
  rw [namesIn, namesIn, if_neg (by simpa using hempty), if_neg (by simpa using hother), components,
    components, splitOn, splitOn] at h
  have hparts := List.map_injective_iff.2 (fun _ _ => String.ofList_injective) h
  have hjoin := congrArg (Chars.join ['/']) hparts
  rw [Chars.join_splitOn, Chars.join_splitOn] at hjoin
  exact String.toList_injective hjoin

/-- A folder below a place, by way of folders whose names are not ignored. -/
inductive ShownFolder (fs : FileSystem) (root : Place) : String → Prop
  | top : ShownFolder fs root ""
  | child {path name : String} (h : ShownFolder fs root path)
    (hfolder : fs.entry? (root ++ namesIn path ++ [name]) = some .folder)
    (hshown : Filter.isIgnoredFolder name = false) : ShownFolder fs root (Path.child path name)

namespace ShownFolder

variable (hfs : fs.WellFormed)
include hfs

theorem isName_of_there (hentry : fs.entry? (root ++ namesIn path ++ [name]) = some entry) : IsName name :=
  hfs.isName_of_found hentry name (by simp)

theorem isName (h : ShownFolder fs root path) : ∀ name ∈ namesIn path, IsName name := by
  induction h with
  | top => exact List.forall_mem_nil _
  | child _ hfolder _ ih => exact isName_of_child ih (isName_of_there hfs hfolder)

theorem entry?_eq (h : ShownFolder fs root path) (hroot : fs.entry? root = some .folder) :
    fs.entry? (root ++ namesIn path) = some .folder := by
  cases h with
  | top =>
    have hnone : namesIn "" = [] := rfl
    rwa [hnone, List.append_nil]
  | child _ hfolder _ =>
    rw [namesIn_child (isName_of_there hfs hfolder), ← List.append_assoc]
    exact hfolder

/-- A folder is shown if no name on the way to it is ignored. -/
theorem of_names (hfolder : fs.entry? (root ++ namesIn path) = some .folder)
    (hshown : ∀ name ∈ namesIn path, Filter.isIgnoredFolder name = false) : ShownFolder fs root path := by
  have hall (names : List String) (hfolder : fs.entry? (root ++ names) = some .folder)
      (hshown : ∀ name ∈ names, Filter.isIgnoredFolder name = false) :
      ∃ path, namesIn path = names ∧ ShownFolder fs root path := by
    induction names using List.reverseRecOn with
    | nil => exact ⟨"", rfl, .top⟩
    | append_singleton names name ih =>
      obtain ⟨hnames, hname⟩ := List.forall_mem_append.1 hshown
      rw [← List.append_assoc] at hfolder
      obtain ⟨path, rfl, hpath⟩ := ih (hfs.folder_of_append hfolder (List.cons_ne_nil name [])) hnames
      exact ⟨_, namesIn_child (isName_of_there hfs hfolder),
        hpath.child hfolder (hname name List.mem_cons_self)⟩
  obtain ⟨other, hother, hfound⟩ := hall (namesIn path) hfolder hshown
  exact eq_of_namesIn hother ▸ hfound

end ShownFolder

end FileSystem

/-! ## Walks -/

namespace Walk

variable {fs : FileSystem} {sizeLimit : Int} {root : Place} {path name : String}

/-- A walk comes to every shown folder, unless it is refused. -/
theorem exists_node_of_shown (hfs : fs.WellFormed) (hroot : fs.entry? root = some .folder)
    (hlinks : fs.Linkless root) (h : ShownFolder fs root path)
    (hopen : ¬ fs.IsRefused (location (pathOf root) path)) :
    ∃ node ∈ (tree fs root sizeLimit).nodes, node.isFolder = true ∧ node.path = path := by
  obtain ⟨places, hcovers⟩ := @covers_tree fs sizeLimit root hfs hroot
  have hordered := @ordered_tree fs sizeLimit root hfs hroot
  induction h with
  | top => exact ⟨_, List.mem_cons_self, rfl, rfl⟩
  | @child path name h hfolder hshown ih =>
    have hname := ShownFolder.isName_of_there hfs hfolder
    obtain ⟨node, hnode, hisFolder, rfl⟩ :=
      ih (mt (isRefused_child hfs hroot (h.isName hfs) hname) hopen)
    have hstands : fs.StandsFor root node (root ++ namesIn node.path) :=
      ⟨0, hlinks.resolveFrom_eq hfs (h.entry?_eq hfs hroot) 0⟩
    have hleads : fs.Leads (root ++ namesIn node.path) name (root ++ namesIn node.path ++ [name]) :=
      ⟨⟨_, hfs.mem_listing_iff.2 hfolder⟩, hshown, hfs.resolveFrom_entry hfolder rfl⟩
    have hplace := (hcovers.next hnode hisFolder hstands hleads).resolve_right hopen
    obtain ⟨other, hother, links, hfound⟩ := exists_of_stands hcovers.stands hplace
    obtain ⟨hmem, hotherFolder⟩ := List.mem_filter.1 hother
    have hnames := hordered.isName_of_mem (fun name hname => nomatch hname) other hmem
    have hsame := hlinks.place_eq hnames hfound
    rw [List.append_assoc, List.append_cancel_left_eq] at hsame
    refine ⟨other, hmem, hotherFolder, eq_of_namesIn ?_⟩
    rw [namesIn_child hname, hsame, Node.names]

end Walk

namespace Checkout

variable {fs : FileSystem} {sizeLimit : Int} {root folder file path : String} {place : Place}
  {checkout : Checkout} {entry : Entry}

/-- A walk of a root comes to the tree of the place that the root leads to. -/
theorem eq_of_walk (hroot : fs.resolve (Path.tidy root) = .ok (place, .folder))
    (hwalk : walk fs root sizeLimit = .ok checkout) :
    checkout = { root := pathOf place, tree := Walk.tree fs place sizeLimit } := by
  obtain ⟨-, -, -, found, hfound, rfl⟩ := walk_eq_ok_iff.1 hwalk
  obtain ⟨rfl, -⟩ := Prod.mk.inj (Except.ok.inj (hroot.symm.trans hfound))
  rfl

section Files

variable (hfs : fs.WellFormed) (hroot : fs.resolve (Path.tidy root) = .ok (place, .folder))
  (hwalk : walk fs root sizeLimit = .ok checkout) (hlinks : fs.Linkless place)
include hfs hroot hwalk hlinks

/-- What a walk lists stands in a shown folder. -/
theorem exists_of_mem_files {node : Node} (h : node ∈ checkout.files) :
    ∃ folder file entry, ShownFolder fs place folder ∧ node.path = Path.child folder file ∧
      fs.entry? (place ++ namesIn folder ++ [file]) = some entry ∧ entry.isFolder = false := by
  obtain rfl := eq_of_walk hroot hwalk
  obtain ⟨entry, found, seen, hfollows, -, -⟩ := (mem_files_iff hwalk).1 h
  have hshown := shown_of_mem_files hfs hwalk h
  have hplace := entry?_of_resolve hroot
  obtain ⟨⟨folder, hfolder, -, inner, name, hread, hentry, hpath⟩, hjudged, -, -⟩ := hfollows
  have hnames := (@Walk.ordered_tree fs sizeLimit place hfs hplace).isName_of_mem
    (fun _ => List.not_mem_nil.elim) folder hfolder
  have hfound := Walk.resolveFrom_of_resolve hfs hplace hnames (Walk.folderAt?_eq_some_iff.1 hread)
  obtain rfl := hlinks.place_eq hnames hfound
  rw [Node.names, hpath, namesIn_child (hfs.isName_of_mem_listing hentry), List.dropLast_concat] at hshown
  refine ⟨folder.path, name, entry, .of_names hfs (entry?_of_resolveFrom hfound) hshown, hpath,
    hfs.mem_listing_iff.1 hentry, ?_⟩
  cases entry with
  | folder => rcases hjudged with h | h <;> cases h
  | file | link | pipe => rfl

/-- An entry of a shown folder is listed, if the walk makes a file of it. -/
theorem exists_mem_files {size : Nat} (h : ShownFolder fs place folder)
    (hentry : fs.entry? (place ++ namesIn folder ++ [file]) = some entry)
    (hstep : Walk.step fs sizeLimit (place ++ namesIn folder)
      (Walk.location (pathOf place) (Path.child folder file)) file entry = .list size) :
    ∃ node ∈ checkout.files, node.path = Path.child folder file := by
  obtain rfl := eq_of_walk hroot hwalk
  have hplace := entry?_of_resolve hroot
  obtain ⟨hjudged, found, seen, hseen, hnot, hincludes, -⟩ := Walk.step_eq_list_iff.1 hstep
  have hchild : ¬ fs.IsRefused (Walk.location (pathOf place) (Path.child folder file)) := by
    rw [IsRefused, hseen]
    rintro (h | h) <;> cases h
  have hopen := mt (Walk.isRefused_child hfs hplace (h.isName hfs)
    (ShownFolder.isName_of_there hfs hentry)) hchild
  obtain ⟨above, habove, hisFolder, rfl⟩ :=
    @Walk.exists_node_of_shown fs sizeLimit place folder hfs hplace hlinks h hopen
  have hread := (Walk.folderAt?_of_denotes hfs hplace (h.isName hfs)
    ⟨0, hlinks.resolveFrom_eq hfs (h.entry?_eq hfs hplace) 0⟩).resolve_right fun hclosed =>
      hopen hclosed.2
  have hmeets : Meets fs { root := pathOf place, tree := Walk.tree fs place sizeLimit }
      (Path.child above.path file) entry :=
    ⟨above, habove, hisFolder, _, file, hread, hfs.mem_listing_iff.2 hentry, rfl⟩
  exact (Follows.listed_iff hwalk ⟨hmeets, hjudged, hseen, hnot⟩).2 hincludes

end Files

end Checkout

end CodeReview
