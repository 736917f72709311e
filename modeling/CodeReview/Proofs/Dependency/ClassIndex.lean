import CodeReview.Proofs.Dependency.Targets
import CodeReview.Proofs.Path.Keys

/-!
# The index of classes

* `classFilesBelow`: the Java files in the order of the index, which goes by folders
  (`sorted_classFilesBelow`).
* `javaClass?_eq`: a class is looked up as the first of them that has its name, by the key of its path.
-/

namespace CodeReview.Dependency

open Text FileSystem

namespace Sources

/-! ## The order of the index -/

section Index

variable {fs : FileSystem} {root path folder file : String} {depth : Nat}

/-- The Java files below a folder, each by its folder and its name, in the order of the index. -/
def classFilesBelow (fs : FileSystem) (root : String) : (depth : Nat) → (path : String) →
    List (String × String)
  | 0, _ => []
  | depth + 1, path =>
    match Walk.folderAt? fs (Walk.location root path) with
    | none => []
    | some place =>
      let files := (fs.listing place).filter fun (name, entry) =>
        endsWith ".java" name && !isFolderEntry fs (Walk.location root (Path.child path name)) entry
      let folders := (fs.listing place).filter fun (name, entry) =>
        entry.isFolder && !Filter.isIgnoredFolder name
      (files.map fun (name, _) => (path, name)) ++
        folders.flatMap fun (name, _) => classFilesBelow fs root depth (Path.child path name)

theorem javaFilesBelow_eq (fs : FileSystem) (root : String) (depth : Nat) (path : String) :
    javaFilesBelow fs root depth path = (classFilesBelow fs root depth path).map fun found =>
      (className found.2, Path.normalize (Path.child found.1 found.2)) := by
  induction depth generalizing path with
  | zero => rfl
  | succ depth ih =>
    rw [javaFilesBelow, classFilesBelow]
    cases Walk.folderAt? fs (Walk.location root path) with
    | none => rfl
    | some place =>
      dsimp only
      rw [List.map_append, List.map_map, List.map_flatMap]
      exact congrArg _ (List.flatMap_congr fun folder _ => ih _)

/-- A folder's files, by name, and then what is below it. -/
def Before (first second : String × String) : Prop :=
  namesIn first.1 < namesIn second.1 ∨ first.1 = second.1 ∧ first.2 < second.2

theorem exists_namesIn (hfs : fs.WellFormed) (h : (folder, file) ∈ classFilesBelow fs root depth path) :
    ∃ rest, namesIn folder = namesIn path ++ rest := by
  induction depth generalizing path with
  | zero => exact nomatch h
  | succ depth ih =>
    rw [classFilesBelow] at h
    split at h
    · exact nomatch h
    · next place hread =>
      rcases List.mem_append.1 h with h | h
      · obtain ⟨listed, -, hlisted⟩ := List.mem_map.1 h
        obtain ⟨rfl, -⟩ := Prod.mk.inj hlisted
        exact ⟨[], (List.append_nil _).symm⟩
      · obtain ⟨⟨name, entry⟩, hlisted, hbelow⟩ := List.mem_flatMap.1 h
        obtain ⟨rest, hrest⟩ := ih hbelow
        rw [namesIn_child (hfs.isName_of_mem_listing (List.mem_filter.1 hlisted).1),
          List.append_assoc] at hrest
        exact ⟨_, hrest⟩

theorem sorted_classFilesBelow (hfs : fs.WellFormed) (root : String) (depth : Nat) (path : String) :
    (classFilesBelow fs root depth path).Pairwise Before := by
  induction depth generalizing path with
  | zero => exact .nil
  | succ depth ih =>
    rw [classFilesBelow]
    cases Walk.folderAt? fs (Walk.location root path) with
    | none => exact .nil
    | some place =>
      have hbelow {name : String} {entry : Entry} {found : String × String}
          (hlisted : (name, entry) ∈ (fs.listing place).filter fun (name, entry) =>
            entry.isFolder && !Filter.isIgnoredFolder name)
          (hfound : found ∈ classFilesBelow fs root depth (Path.child path name)) :
          ∃ rest, namesIn found.1 = namesIn path ++ name :: rest := by
        obtain ⟨rest, hrest⟩ := exists_namesIn hfs hfound
        rw [namesIn_child (hfs.isName_of_mem_listing (List.mem_filter.1 hlisted).1),
          List.append_assoc] at hrest
        exact ⟨rest, hrest⟩
      dsimp only
      refine List.pairwise_append.2 ⟨?_, List.pairwise_flatMap.2 ⟨fun _ _ => ih _, ?_⟩, ?_⟩
      · exact List.pairwise_map.2 (((hfs.listing_sorted place).sublist List.filter_sublist).imp
          fun hless => .inr ⟨rfl, hless⟩)
      · refine ((hfs.listing_sorted place).sublist List.filter_sublist).imp_of_mem ?_
        intro first second hfirst hsecond hless found hfound other hother
        obtain ⟨rest, hrest⟩ := hbelow hfirst hfound
        obtain ⟨rest', hrest'⟩ := hbelow hsecond hother
        refine .inl ?_
        rw [hrest, hrest']
        exact List.append_left_lt (List.cons_lt_cons_iff.2 (.inl hless))
      · intro found hfound other hother
        obtain ⟨⟨name, entry⟩, hlisted, hother⟩ := List.mem_flatMap.1 hother
        obtain ⟨listed, -, rfl⟩ := List.mem_map.1 hfound
        obtain ⟨rest, hrest⟩ := hbelow hlisted hother
        refine .inl ?_
        have hless : namesIn path ++ [] < namesIn path ++ name :: rest :=
          List.append_left_lt (List.nil_lt_cons name rest)
        rwa [List.append_nil, ← hrest] at hless

end Index

/-! ## Looking up a class -/

theorem lookup_map {α : Type} (key value : α → String) (items : List α) (name : String) :
    (items.map fun item => (key item, value item)).lookup name =
      (items.find? fun item => name == key item).map value := by
  induction items with
  | nil => rfl
  | cons item items ih =>
    rw [List.map_cons, List.lookup_cons, List.find?_cons, ih]
    cases name == key item <;> rfl

theorem className_iff {name file : String} (h : endsWith ".java" file = true) :
    (name == className file) = true ↔ file = name ++ ".java" := by
  obtain ⟨stem, hstem⟩ := List.isSuffixOf_iff_suffix.1 h
  have hname : className file = String.ofList stem := by
    have hlength : file.length - 5 = stem.length := by
      rw [← String.length_toList, ← hstem, List.length_append]
      rfl
    rw [className, hlength, ← hstem, List.take_left]
  have hfile : file = String.ofList stem ++ ".java" := by
    apply String.toList_injective
    rw [String.toList_append, String.toList_ofList, hstem]
  rw [beq_iff_eq, hname]
  constructor
  · rintro rfl
    exact hfile
  · intro heq
    rw [hfile] at heq
    exact ((String.append_left_inj ".java").1 heq).symm

theorem javaClass?_eq (sources : Sources) (name : String) : sources.javaClass? name =
    ((classFilesBelow sources.fs (Path.tidy sources.root) (Walk.folderCount sources.fs) "").find?
      fun found => name == className found.2).map fun found =>
        Path.normalize (Path.child found.1 found.2) := by
  rw [javaClass?, javaClasses, javaFilesBelow_eq, lookup_map]

theorem endsWith_of_mem_classFilesBelow {fs : FileSystem} {root path : String} {depth : Nat}
    {found : String × String} (h : found ∈ classFilesBelow fs root depth path) :
    endsWith ".java" found.2 = true := by
  induction depth generalizing path with
  | zero => exact nomatch h
  | succ depth ih =>
    rw [classFilesBelow] at h
    split at h
    · exact nomatch h
    · rcases List.mem_append.1 h with h | h
      · obtain ⟨listed, hlisted, rfl⟩ := List.mem_map.1 h
        exact (Bool.and_eq_true_iff.1 (List.mem_filter.1 hlisted).2).1
      · obtain ⟨listed, -, hbelow⟩ := List.mem_flatMap.1 h
        exact ih hbelow

theorem ne_empty_of_javaClass? {sources : Sources} {name target : String}
    (h : sources.javaClass? name = some target) : target ≠ "" := by
  rw [javaClass?_eq, Option.map_eq_some_iff] at h
  obtain ⟨⟨folder, file⟩, hfind, rfl⟩ := h
  obtain ⟨stem, hfile⟩ := List.isSuffixOf_iff_suffix.1
    (endsWith_of_mem_classFilesBelow (List.mem_of_find?_eq_some hfind))
  have hj : 'j' ∈ (Path.child folder file).toList := by
    have hfile : 'j' ∈ file.toList := hfile ▸ List.mem_append_right stem (by decide)
    rw [Path.child]
    split
    · exact hfile
    · rw [String.toList_append]
      exact List.mem_append_right _ hfile
  exact Path.normalize_ne_empty hj (by decide) (by decide)

end Sources

end CodeReview.Dependency
