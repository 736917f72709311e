import CodeReview.Proofs.FileSystem.Resolution
import CodeReview.Proofs.Repository.Tree
import CodeReview.Proofs.Steps
import Mathlib.Data.List.Perm.Subperm

/-!
# What a walk does

`Listed` is a walk without a bound on its depth: one rule for each thing that is made of an entry.
There are at least as many folders as places that may be entered, so a walk that may go as deep as that
never meets the bound (`listed_entries`), and a walk that may go deeper comes to the same
(`Listed.unique`). Statements about walks are inductions on `Listed`.
-/

namespace CodeReview.Walk

open FileSystem

variable {fs : FileSystem} {sizeLimit : Int} {root : String}

/-! ## One entry -/

section Step

variable {place target found : Place} {location name : String} {entry seen : Entry} {size : Nat}

theorem folderAt?_eq_some_iff {path : String} :
    folderAt? fs path = some place ↔ fs.resolve path = .ok (place, .folder) := by
  unfold folderAt?
  split
  · next heq => simp [heq]
  · next hne =>
    refine iff_of_false (fun h => nomatch h) fun h => hne place h

/-- What is made of an entry that is judged by what its location leads to. -/
theorem step_of_followed (h : entry.isFile = true ∨ entry.isLink = true) :
    step fs sizeLimit place location name entry =
      match fs.resolve location with
      | .ok (target, .folder) => if Filter.isIgnoredFolder name then .skip else .enter target
      | .ok (_, target) =>
        if Filter.includes fs location (some target.size) sizeLimit then .list target.size else .skip
      | .error _ => .skip := by
  cases entry with
  | file | link => rfl
  | folder | pipe => simp [Entry.isFile, Entry.isLink] at h

theorem step_folder : step fs sizeLimit place location name .folder =
    if Filter.isIgnoredFolder name then .skip else .enter (place ++ [name]) := rfl

/-- A folder is entered at its own place and a link at that of the folder it leads to, unless its name
is ignored. -/
theorem step_eq_enter_iff : step fs sizeLimit place location name entry = .enter target ↔
    Filter.isIgnoredFolder name = false ∧
      (entry = .folder ∧ target = place ++ [name] ∨
        (entry.isFile = true ∨ entry.isLink = true) ∧
          fs.resolve location = .ok (target, .folder)) := by
  by_cases hentry : entry.isFile = true ∨ entry.isLink = true
  · have hfolder : entry ≠ .folder := by
      rintro rfl
      simp [Entry.isFile, Entry.isLink] at hentry
    simp only [step_of_followed hentry, hentry, hfolder, false_and, true_and, false_or]
    rcases fs.resolve location with error | ⟨found, seen⟩
    · simp
    · cases seen with
      | folder => cases Filter.isIgnoredFolder name <;> simp
      | file | link | pipe =>
        dsimp only
        split <;> simp
  · simp only [hentry, false_and, or_false]
    cases entry with
    | folder =>
      rw [step_folder]
      cases Filter.isIgnoredFolder name <;> simp [@eq_comm _ target]
    | file | link => simp [Entry.isFile, Entry.isLink] at hentry
    | pipe => simp [step]

/-- A link to a folder is entered at the place of the folder, unless its name is ignored. -/
theorem step_link {text : String} (hname : Filter.isIgnoredFolder name = false)
    (h : fs.resolve location = .ok (target, .folder)) :
    step fs sizeLimit place location name (.link text) = .enter target :=
  step_eq_enter_iff.2 ⟨hname, .inr ⟨.inr rfl, h⟩⟩

/-- A file, or a link to anything but a folder, is listed with the size of what is found, if the filter
takes it. -/
theorem step_eq_list_iff : step fs sizeLimit place location name entry = .list size ↔
    (entry.isFile = true ∨ entry.isLink = true) ∧
      ∃ found seen, fs.resolve location = .ok (found, seen) ∧ seen.isFolder = false ∧
        Filter.includes fs location (some (seen.size : Int)) sizeLimit = true ∧ size = seen.size := by
  by_cases hentry : entry.isFile = true ∨ entry.isLink = true
  · simp only [step_of_followed hentry, hentry, true_and]
    rcases fs.resolve location with error | ⟨found, seen⟩
    · simp
    · cases seen with
      | folder => cases Filter.isIgnoredFolder name <;> simp [Entry.isFolder]
      | file | link | pipe =>
        dsimp only
        split
        · next hincludes => simp [Entry.isFolder, hincludes, @eq_comm _ size]
        · next hincludes => simp [Entry.isFolder, hincludes]
  · simp only [hentry, false_and]
    cases entry with
    | folder =>
      rw [step_folder]
      cases Filter.isIgnoredFolder name <;> simp
    | file | link => simp [Entry.isFile, Entry.isLink] at hentry
    | pipe => simp [step]

end Step

/-! ## Walks -/

/-- A walk over entries of the folder at a place, which it has come to as a path below `root`. With the
places entered before, it comes to trees and to the places entered after. -/
inductive Listed (fs : FileSystem) (sizeLimit : Int) (root : String) :
    Place → String → List (String × Entry) → List Place → List Tree → List Place → Prop
  | nil {place path entered} : Listed fs sizeLimit root place path [] entered [] entered
  | skip {place path name entry rest entered trees after}
    (hstep : step fs sizeLimit place (location root (Path.child path name)) name entry = .skip)
    (hrest : Listed fs sizeLimit root place path rest entered trees after) :
    Listed fs sizeLimit root place path ((name, entry) :: rest) entered trees after
  | list {place path name entry rest entered size trees after}
    (hstep : step fs sizeLimit place (location root (Path.child path name)) name entry = .list size)
    (hrest : Listed fs sizeLimit root place path rest entered trees after) :
    Listed fs sizeLimit root place path ((name, entry) :: rest) entered
      (.node { path := Path.child path name, size := size } [] :: trees) after
  /-- The place has been entered under another name. -/
  | known {place path name entry rest entered target trees after}
    (hstep : step fs sizeLimit place (location root (Path.child path name)) name entry = .enter target)
    (hknown : target ∈ entered)
    (hrest : Listed fs sizeLimit root place path rest entered trees after) :
    Listed fs sizeLimit root place path ((name, entry) :: rest) entered trees after
  | enter {place path name entry rest entered target found children between trees after}
    (hstep : step fs sizeLimit place (location root (Path.child path name)) name entry = .enter target)
    (hnew : target ∉ entered)
    (hread : folderAt? fs (location root (Path.child path name)) = some found)
    (hbelow : Listed fs sizeLimit root found (Path.child path name) (fs.listing found)
      (target :: entered) children between)
    (hrest : Listed fs sizeLimit root place path rest between trees after) :
    Listed fs sizeLimit root place path ((name, entry) :: rest) entered
      (.node { path := Path.child path name, isFolder := true } children :: trees) after
  /-- The folder cannot be read. -/
  | closed {place path name entry rest entered target trees after}
    (hstep : step fs sizeLimit place (location root (Path.child path name)) name entry = .enter target)
    (hnew : target ∉ entered)
    (hread : folderAt? fs (location root (Path.child path name)) = none)
    (hrest : Listed fs sizeLimit root place path rest (target :: entered) trees after) :
    Listed fs sizeLimit root place path ((name, entry) :: rest) entered
      (.node { path := Path.child path name, isFolder := true } [] :: trees) after

/-- A walk over the folder that it has come to as a path, if it can be read. -/
def ListedBelow (fs : FileSystem) (sizeLimit : Int) (root path : String) (entered : List Place)
    (trees : List Tree) (after : List Place) : Prop :=
  match folderAt? fs (location root path) with
  | some place => Listed fs sizeLimit root place path (fs.listing place) entered trees after
  | none => trees = [] ∧ after = entered

theorem listedBelow_iff_of_read {path : String} {entered after : List Place} {trees : List Tree}
    {place : Place} (hread : folderAt? fs (location root path) = some place) :
    ListedBelow fs sizeLimit root path entered trees after ↔
      Listed fs sizeLimit root place path (fs.listing place) entered trees after := by
  rw [ListedBelow, hread]

theorem listedBelow_iff_of_closed {path : String} {entered after : List Place} {trees : List Tree}
    (hread : folderAt? fs (location root path) = none) :
    ListedBelow fs sizeLimit root path entered trees after ↔ trees = [] ∧ after = entered := by
  rw [ListedBelow, hread]

/-! ## Depth -/

/-- Different folders, as a walk enters them. -/
structure Entered (fs : FileSystem) (places : List Place) : Prop where
  nodup : places.Nodup
  folder : ∀ place ∈ places, place = [] ∨ (place, Entry.folder) ∈ fs.entries

section Depth

variable {place target : Place} {path name : String} {entry : Entry} {es : List (String × Entry)}
  {entered after : List Place} {trees : List Tree} {depth : Nat}

/-- No more places are entered than there are folders. -/
theorem Entered.length_le (h : Entered fs entered) : entered.length ≤ folderCount fs := by
  have hsubset : entered ⊆ [] :: (fs.entries.filter (·.2.isFolder)).map (·.1) := by
    intro place hplace
    rcases h.folder place hplace with rfl | hmem
    · exact List.mem_cons_self
    · exact List.mem_cons_of_mem _ (List.mem_map.2 ⟨_, List.mem_filter.2 ⟨hmem, rfl⟩, rfl⟩)
  have hle := (List.subperm_of_subset h.nodup hsubset).length_le
  rwa [List.length_cons, List.length_map, ← List.countP_eq_length_filter] at hle

theorem folder_of_step {location : String}
    (hstep : step fs sizeLimit place location name entry = .enter target)
    (hentry : (name, entry) ∈ fs.listing place) :
    target = [] ∨ (target, Entry.folder) ∈ fs.entries := by
  obtain ⟨-, ⟨rfl, rfl⟩ | ⟨-, hresolve⟩⟩ := step_eq_enter_iff.1 hstep
  · exact .inr (mem_entries_of_mem_listing hentry)
  · by_cases hne : target = []
    · exact .inl hne
    · exact .inr (mem_entries_of_found (entry?_of_resolve hresolve) hne)

theorem Entered.cons (h : Entered fs entered) {location : String}
    (hstep : step fs sizeLimit place location name entry = .enter target)
    (hentry : (name, entry) ∈ fs.listing place) (hnew : target ∉ entered) :
    Entered fs (target :: entered) :=
  ⟨List.nodup_cons.2 ⟨hnew, h.nodup⟩,
    List.forall_mem_cons.2 ⟨folder_of_step hstep hentry, h.folder⟩⟩

/-- Places that have been entered stay entered. -/
theorem Listed.suffix (h : Listed fs sizeLimit root place path es entered trees after) :
    entered <:+ after := by
  induction h with
  | nil => exact List.suffix_rfl
  | skip _ _ ih | list _ _ ih | known _ _ _ ih => exact ih
  | enter _ _ _ _ _ ihbelow ihrest =>
    exact (List.suffix_cons _ _).trans (ihbelow.trans ihrest)
  | closed _ _ _ _ ih => exact (List.suffix_cons _ _).trans ih

theorem Listed.entered_after (h : Listed fs sizeLimit root place path es entered trees after)
    (hes : es ⊆ fs.listing place) (hentered : Entered fs entered) : Entered fs after := by
  induction h with
  | nil => exact hentered
  | skip _ _ ih | list _ _ ih | known _ _ _ ih => exact ih (List.cons_subset.1 hes).2 hentered
  | enter hstep hnew _ _ _ ihbelow ihrest =>
    obtain ⟨hentry, hrest⟩ := List.cons_subset.1 hes
    exact ihrest hrest (ihbelow (List.Subset.refl _) (hentered.cons hstep hentry hnew))
  | closed hstep hnew _ _ ih =>
    obtain ⟨hentry, hrest⟩ := List.cons_subset.1 hes
    exact ih hrest (hentered.cons hstep hentry hnew)

/-- A bound on the depth that is not met below a folder is not met among the entries above it. -/
theorem listed_entries_of_below
    (hbelow : ∀ path entered, Entered fs entered → folderCount fs < depth + entered.length →
      ListedBelow fs sizeLimit root path entered (below fs sizeLimit root depth path entered).1
        (below fs sizeLimit root depth path entered).2)
    (hes : es ⊆ fs.listing place) (hentered : Entered fs entered)
    (hdepth : folderCount fs ≤ depth + entered.length) :
    Listed fs sizeLimit root place path es entered
      (entries fs sizeLimit root depth place path es entered).1
      (entries fs sizeLimit root depth place path es entered).2 := by
  induction es generalizing entered with
  | nil =>
    rw [entries]
    exact .nil
  | cons listed es ih =>
    obtain ⟨name, entry⟩ := listed
    obtain ⟨hentry, hrest⟩ := List.cons_subset.1 hes
    rw [entries]
    split
    · next hstep => exact .skip hstep (ih hrest hentered hdepth)
    · next hstep => exact .list hstep (ih hrest hentered hdepth)
    · next target hstep =>
      split
      · next hknown =>
        exact .known hstep (List.contains_iff_mem.1 hknown) (ih hrest hentered hdepth)
      · next hnew =>
        rw [List.contains_iff_mem] at hnew
        have hnext := hentered.cons hstep hentry hnew
        have hlisted := hbelow (Path.child path name) (target :: entered) hnext
          (by rw [List.length_cons]; omega)
        generalize below fs sizeLimit root depth (Path.child path name) (target :: entered) = result
          at hlisted ⊢
        obtain ⟨children, between⟩ := result
        unfold ListedBelow at hlisted
        split at hlisted
        · next hread =>
          have hbetween := hlisted.entered_after (List.Subset.refl _) hnext
          have hlength := hlisted.suffix.length_le
          rw [List.length_cons] at hlength
          exact .enter hstep hnew hread hlisted (ih hrest hbetween (by omega))
        · next hread =>
          obtain ⟨rfl, rfl⟩ := hlisted
          exact .closed hstep hnew hread (ih hrest hnext (by rw [List.length_cons]; omega))

/-- With depth left for all folders that have not been entered, a walk does not meet its bound. -/
theorem listedBelow_below (hentered : Entered fs entered)
    (hdepth : folderCount fs < depth + entered.length) :
    ListedBelow fs sizeLimit root path entered (below fs sizeLimit root depth path entered).1
      (below fs sizeLimit root depth path entered).2 := by
  induction depth generalizing path entered with
  | zero => exact absurd hentered.length_le (by omega)
  | succ depth ih =>
    rw [below, ListedBelow]
    cases folderAt? fs (location root path) with
    | none => exact ⟨rfl, rfl⟩
    | some place =>
      exact listed_entries_of_below (fun _ _ hentered hdepth => ih hentered hdepth)
        (List.Subset.refl _) hentered (by omega)

/-- A walk comes to one result. -/
theorem Listed.unique {trees' : List Tree} {after' : List Place}
    (h : Listed fs sizeLimit root place path es entered trees after)
    (h' : Listed fs sizeLimit root place path es entered trees' after') :
    trees' = trees ∧ after' = after := by
  induction h generalizing trees' after' with
  | nil =>
    cases h'
    exact ⟨rfl, rfl⟩
  | skip hstep _ ih =>
    cases h' with
    | skip _ hrest' => exact ih hrest'
    | list hstep' | known hstep' | enter hstep' | closed hstep' =>
      exact nomatch hstep.symm.trans hstep'
  | list hstep _ ih =>
    cases h' with
    | list hstep' hrest' =>
      obtain rfl := Step.list.inj (hstep.symm.trans hstep')
      obtain ⟨rfl, rfl⟩ := ih hrest'
      exact ⟨rfl, rfl⟩
    | skip hstep' | known hstep' | enter hstep' | closed hstep' =>
      exact nomatch hstep.symm.trans hstep'
  | known hstep hknown _ ih =>
    cases h' with
    | known _ _ hrest' => exact ih hrest'
    | skip hstep' | list hstep' => exact nomatch hstep.symm.trans hstep'
    | enter hstep' hnew | closed hstep' hnew =>
      obtain rfl := Step.enter.inj (hstep.symm.trans hstep')
      exact absurd hknown hnew
  | enter hstep hnew hread _ _ ihbelow ihrest =>
    cases h' with
    | enter hstep' _ hread' hbelow' hrest' =>
      obtain rfl := Step.enter.inj (hstep.symm.trans hstep')
      obtain rfl := Option.some.inj (hread.symm.trans hread')
      obtain ⟨rfl, rfl⟩ := ihbelow hbelow'
      obtain ⟨rfl, rfl⟩ := ihrest hrest'
      exact ⟨rfl, rfl⟩
    | skip hstep' | list hstep' => exact nomatch hstep.symm.trans hstep'
    | known hstep' hknown =>
      obtain rfl := Step.enter.inj (hstep.symm.trans hstep')
      exact absurd hknown hnew
    | closed _ _ hread' => exact nomatch hread.symm.trans hread'
  | closed hstep hnew hread _ ih =>
    cases h' with
    | closed hstep' _ _ hrest' =>
      obtain rfl := Step.enter.inj (hstep.symm.trans hstep')
      obtain ⟨rfl, rfl⟩ := ih hrest'
      exact ⟨rfl, rfl⟩
    | skip hstep' | list hstep' => exact nomatch hstep.symm.trans hstep'
    | known hstep' hknown =>
      obtain rfl := Step.enter.inj (hstep.symm.trans hstep')
      exact absurd hknown hnew
    | enter _ _ hread' => exact nomatch hread.symm.trans hread'

end Depth

/-! ## One folder -/

/-- The tree of an entry that is listed as a file: an entry that is a file or a link, and does not lead
to a folder, if the filter takes what it leads to. -/
def fileTree? (fs : FileSystem) (sizeLimit : Int) (root path : String) (listed : String × Entry) :
    Option Tree :=
  let here := Path.child path listed.1
  if listed.2.isFile || listed.2.isLink then
    match fs.resolve (location root here) with
    | .ok (_, seen) =>
      if !seen.isFolder && Filter.includes fs (location root here) (some seen.size) sizeLimit then
        some (.node { path := here, size := seen.size } [])
      else none
    | .error _ => none
  else none

section Folder

variable {place target : Place} {path name : String} {entry : Entry} {es : List (String × Entry)}
  {entered after : List Place} {trees : List Tree}

theorem fileTree?_of_list {size : Nat}
    (hstep : step fs sizeLimit place (location root (Path.child path name)) name entry = .list size) :
    fileTree? fs sizeLimit root path (name, entry) =
      some (.node { path := Path.child path name, size := size } []) := by
  obtain ⟨hentry, found, seen, hresolve, hfolder, hincludes, rfl⟩ := step_eq_list_iff.1 hstep
  simp [fileTree?, hentry, hresolve, hfolder, hincludes]

theorem fileTree?_eq_none
    (hstep : ∀ size, step fs sizeLimit place (location root (Path.child path name)) name entry ≠
      .list size) : fileTree? fs sizeLimit root path (name, entry) = none := by
  unfold fileTree?
  dsimp only
  split
  · next hentry =>
    split
    · next found seen hresolve =>
      split
      · next hlisted =>
        simp only [Bool.and_eq_true, Bool.not_eq_true'] at hlisted
        refine absurd (step_eq_list_iff.2 ⟨?_, found, seen, hresolve, hlisted.1, hlisted.2, rfl⟩)
          (hstep seen.size)
        simpa using hentry
      · rfl
    · rfl
  · rfl

/-- The files that are listed in a folder. -/
theorem Listed.files (h : Listed fs sizeLimit root place path es entered trees after) :
    trees.filter (!·.here.isFolder) = es.filterMap (fileTree? fs sizeLimit root path) := by
  induction h with
  | nil => rfl
  | skip hstep _ ih =>
    rw [List.filterMap_cons_none (fileTree?_eq_none fun size hlist => nomatch hstep.symm.trans hlist),
      ih]
  | list hstep _ ih =>
    rw [List.filterMap_cons_some (fileTree?_of_list hstep), ← ih]
    rfl
  | known hstep _ _ ih =>
    rw [List.filterMap_cons_none (fileTree?_eq_none fun size hlist => nomatch hstep.symm.trans hlist),
      ih]
  | enter hstep _ _ _ _ _ ih | closed hstep _ _ _ ih =>
    rw [List.filterMap_cons_none (fileTree?_eq_none fun size hlist => nomatch hstep.symm.trans hlist),
      ← ih]
    rfl

/-- What is listed in a folder stands under names of the folder, in their order. -/
theorem Listed.paths_sublist (h : Listed fs sizeLimit root place path es entered trees after) :
    (trees.map (·.here.path)).Sublist (es.map fun listed => Path.child path listed.1) := by
  induction h with
  | nil => exact .slnil
  | skip _ _ ih | known _ _ _ ih => exact .cons _ ih
  | list _ _ ih | enter _ _ _ _ _ _ ih | closed _ _ _ _ ih => exact .cons_cons _ ih

/-- What is to be entered has been entered in the end. -/
theorem Listed.mem_after (h : Listed fs sizeLimit root place path es entered trees after)
    (hlisted : (name, entry) ∈ es)
    (hstep : step fs sizeLimit place (location root (Path.child path name)) name entry =
      .enter target) : target ∈ after := by
  induction h with
  | nil => exact nomatch hlisted
  | skip hstep' hrest ih | list hstep' hrest ih =>
    rcases List.mem_cons.1 hlisted with heq | hlisted
    · cases heq
      exact nomatch hstep'.symm.trans hstep
    · exact ih hlisted hstep
  | known hstep' hknown hrest ih =>
    rcases List.mem_cons.1 hlisted with heq | hlisted
    · cases heq
      obtain rfl := Step.enter.inj (hstep'.symm.trans hstep)
      exact hrest.suffix.mem hknown
    · exact ih hlisted hstep
  | enter hstep' _ _ hbelow hrest _ ih =>
    rcases List.mem_cons.1 hlisted with heq | hlisted
    · cases heq
      obtain rfl := Step.enter.inj (hstep'.symm.trans hstep)
      exact (hbelow.suffix.trans hrest.suffix).mem List.mem_cons_self
    · exact ih hlisted hstep
  | closed hstep' _ _ hrest ih =>
    rcases List.mem_cons.1 hlisted with heq | hlisted
    · cases heq
      obtain rfl := Step.enter.inj (hstep'.symm.trans hstep)
      exact hrest.suffix.mem List.mem_cons_self
    · exact ih hlisted hstep

end Folder

/-! ## All folders -/

section Tree

variable {place : Place} {path : String} {es : List (String × Entry)} {entered after : List Place}
  {trees : List Tree}

/-- Nothing is below a file, and below every folder of a walk there is a walk. -/
theorem Listed.below_of_mem (h : Listed fs sizeLimit root place path es entered trees after)
    {t : Tree} (ht : t ∈ Tree.subtreesOf trees) :
    t.here.isFolder = false ∧ t.children = [] ∨ t.here.isFolder = true ∧
      ∃ before behind, ListedBelow fs sizeLimit root t.here.path before t.children behind ∧
        behind ⊆ after := by
  induction h with
  | nil => exact nomatch ht
  | skip _ _ ih | known _ _ _ ih => exact ih ht
  | list _ _ ih =>
    rcases List.mem_append.1 ht with ht | ht
    · obtain rfl := List.mem_singleton.1 ht
      exact .inl ⟨rfl, rfl⟩
    · exact ih ht
  | enter _ _ hread hbelow hrest ihbelow ihrest =>
    rcases List.mem_append.1 ht with ht | ht
    · rcases List.mem_cons.1 ht with rfl | ht
      · exact .inr ⟨rfl, _, _, (listedBelow_iff_of_read hread).2 hbelow, hrest.suffix.subset⟩
      · refine (ihbelow ht).imp id fun ⟨hfolder, before, behind, hlisted, hsubset⟩ => ?_
        exact ⟨hfolder, before, behind, hlisted, List.Subset.trans hsubset hrest.suffix.subset⟩
    · exact ihrest ht
  | closed _ _ hread hrest ih =>
    rcases List.mem_append.1 ht with ht | ht
    · obtain rfl := List.mem_singleton.1 ht
      exact .inr ⟨rfl, _, _, (listedBelow_iff_of_closed hread).2 ⟨rfl, rfl⟩, hrest.suffix.subset⟩
    · exact ih ht

theorem ListedBelow.entered_after (h : ListedBelow fs sizeLimit root path entered trees after)
    (hentered : Entered fs entered) : Entered fs after := by
  cases hread : folderAt? fs (location root path) with
  | none =>
    obtain ⟨-, rfl⟩ := (listedBelow_iff_of_closed hread).1 h
    exact hentered
  | some place =>
    exact ((listedBelow_iff_of_read hread).1 h).entered_after (List.Subset.refl _) hentered

theorem entered_folder (hplace : fs.entry? place = some .folder) : Entered fs [place] := by
  refine ⟨by simp, fun other hother => ?_⟩
  obtain rfl := List.mem_singleton.1 hother
  by_cases hne : other = []
  · exact .inl hne
  · exact .inr (mem_entries_of_found hplace hne)

/-- The tree of a folder is that of a walk below it. -/
theorem exists_listedBelow (hplace : fs.entry? place = some .folder) :
    ∃ after, ListedBelow fs sizeLimit (pathOf place) "" [place] (tree fs place sizeLimit).children
      after :=
  ⟨_, listedBelow_below (entered_folder hplace) (by simp)⟩

theorem ListedBelow.unique {trees' : List Tree} {after' : List Place}
    (h : ListedBelow fs sizeLimit root path entered trees after)
    (h' : ListedBelow fs sizeLimit root path entered trees' after') :
    trees' = trees ∧ after' = after := by
  cases hread : folderAt? fs (location root path) with
  | none =>
    obtain ⟨rfl, rfl⟩ := (listedBelow_iff_of_closed hread).1 h
    exact (listedBelow_iff_of_closed hread).1 h'
  | some place =>
    exact ((listedBelow_iff_of_read hread).1 h).unique ((listedBelow_iff_of_read hread).1 h')

/-- A walk that may go deeper than there are folders comes to the same tree. -/
theorem below_eq_of_depth (hplace : fs.entry? place = some .folder) {depth : Nat}
    (hdepth : folderCount fs ≤ depth) :
    (below fs sizeLimit (pathOf place) depth "" [place]).1 = (tree fs place sizeLimit).children := by
  obtain ⟨after, hlisted⟩ := @exists_listedBelow fs sizeLimit place hplace
  have hdeeper := @listedBelow_below fs sizeLimit (pathOf place) "" [place] depth
    (entered_folder hplace) (by rw [List.length_singleton]; omega)
  exact (hlisted.unique hdeeper).1

/-- Nothing is below a file of the tree of a folder, and below every folder there is a walk, which has
entered nothing that is not entered in the end. -/
theorem exists_entered_tree (fs : FileSystem) (sizeLimit : Int)
    (hplace : fs.entry? place = some .folder) :
    ∃ after, ListedBelow fs sizeLimit (pathOf place) "" [place] (tree fs place sizeLimit).children
        after ∧
      ∀ t ∈ (tree fs place sizeLimit).subtrees,
        t.here.isFolder = false ∧ t.children = [] ∨ t.here.isFolder = true ∧
          ∃ before behind, ListedBelow fs sizeLimit (pathOf place) t.here.path before t.children
            behind ∧ behind ⊆ after := by
  obtain ⟨after, hlisted⟩ := @exists_listedBelow fs sizeLimit place hplace
  refine ⟨after, hlisted, fun t ht => ?_⟩
  rcases List.mem_cons.1 ht with rfl | ht
  · exact .inr ⟨rfl, _, _, hlisted, List.Subset.refl after⟩
  · have hbelow : t ∈ Tree.subtreesOf (tree fs place sizeLimit).children := ht
    cases hread : folderAt? fs (location (pathOf place) "") with
    | none =>
      rw [((listedBelow_iff_of_closed hread).1 hlisted).1] at hbelow
      exact nomatch hbelow
    | some found => exact ((listedBelow_iff_of_read hread).1 hlisted).below_of_mem hbelow

end Tree

end CodeReview.Walk

namespace CodeReview

open FileSystem

/-- The walk of a local folder comes to the tree of the place it leads to; nothing else is walked. -/
theorem Checkout.walk_eq_ok_iff {fs : FileSystem} {root : String} {sizeLimit : Int}
    {checkout : Checkout} : Checkout.walk fs root sizeLimit = .ok checkout ↔
    Filter.isRemote root = false ∧ Text.startsWith "~" (Path.tidy root) = false ∧
      fs.isFolder (Path.tidy root) = .ok true ∧
      ∃ place, fs.resolve (Path.tidy root) = .ok (place, .folder) ∧
        checkout = { root := pathOf place, tree := Walk.tree fs place sizeLimit } := by
  constructor
  · intro h
    unfold Checkout.walk at h
    split at h
    · exact nomatch h
    next hremote =>
    dsimp only at h
    split at h
    · exact nomatch h
    next hhome =>
    obtain ⟨there, -, h⟩ := exists_of_bind_ok h
    split at h
    · exact nomatch h
    obtain ⟨folder, hfolder, h⟩ := exists_of_bind_ok h
    split at h
    · exact nomatch h
    next hisFolder =>
    rw [Bool.not_eq_true, Bool.not_eq_false'] at hisFolder
    obtain rfl := hisFolder
    obtain ⟨-, place, hplace⟩ := isFolder_eq_true_iff.1 hfolder
    rw [hplace] at h
    exact ⟨Bool.not_eq_true _ ▸ hremote, Bool.not_eq_true _ ▸ hhome, hfolder, place, hplace,
      (Except.ok.inj h).symm⟩
  · rintro ⟨hremote, hhome, hfolder, place, hplace, rfl⟩
    have hthere := isThere_of_isFolder hfolder
    unfold Checkout.walk
    simp only [hremote, hhome, hthere, hfolder, hplace]
    rfl

end CodeReview
