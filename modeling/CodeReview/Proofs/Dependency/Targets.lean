import CodeReview.Proofs.Dependency.Locality
import CodeReview.Proofs.FileSystem.Locations
import CodeReview.Proofs.Repository.Walk
import Mathlib.Data.List.Permutation

/-!
# Where edges lead

The two kinds of edges come to their targets in two ways. The file of an import is looked for, so there
is one; but a path that starts with a slash is looked for outside the repository. The file of a class is
taken from an index of names, and nobody looks at what stands there.

* `Sources.Lands`: the target of an edge as it should be.
* `targets_of_extract`: which targets are so.
* `extract_dangling`: a link that leads nowhere is the target of an edge.
-/

namespace CodeReview.Dependency

open Text FileSystem

namespace Sources

/-- A simplified path that does not lead out of the repository, with a regular file at it. -/
structure Lands (sources : Sources) (target : String) : Prop where
  relative : startsWith "/" target = false
  inside : ".." ∉ components target
  simplified : Path.simplify target = target
  isFile : sources.fs.isFile (Path.under sources.root target) = .ok true

variable {sources : Sources} {target : String}

theorem lands_iff_of_descends (h : Path.Descends target) :
    sources.Lands target ↔ sources.fs.isFile (Path.under sources.root target) = .ok true :=
  ⟨Lands.isFile, fun hfile => ⟨Path.not_startsWith_of_descends h, Path.notMem_components_of_descends h,
    Path.simplify_of_descends h, hfile⟩⟩

/-! ## Imports -/

theorem hasFile_eq_true_iff : sources.hasFile target = .ok true ↔
    (target.isEmpty || target == ".." || startsWith "../" target) = false ∧
      sources.fs.isFile (Path.under sources.root target) = .ok true := by
  unfold hasFile
  split
  · next houtside => simp [houtside]
  · next hinside => simp [hinside]

/-- What a search finds is a file, and it is one of the repository unless its path is absolute. -/
theorem lands_iff_of_firstFile? {candidates : List String}
    (h : sources.firstFile? candidates = .ok (some target)) :
    sources.fs.isFile (Path.under sources.root target) = .ok true ∧
      (sources.Lands target ↔ startsWith "/" target = false) := by
  obtain ⟨candidate, -, htarget, hfile⟩ := exists_of_firstFile? h
  obtain ⟨hinside, hfile⟩ := hasFile_eq_true_iff.1 hfile
  refine ⟨hfile, Lands.relative, fun hrelative => ?_⟩
  unfold lookedUp at htarget
  split at htarget
  · next hempty =>
    subst htarget
    simp [hempty] at hinside
  · have hcases := Path.simplify_cases candidate
    rw [← htarget] at hcases
    rcases hcases with habsolute | rfl | hupward | rfl | hsteps
    · exact nomatch hrelative.symm.trans habsolute
    · exact nomatch hinside
    · simp [hupward] at hinside
    · exact ⟨by decide, by decide, by decide, hfile⟩
    · exact (lands_iff_of_descends hsteps).2 hfile

/-! ## Classes -/

/-- A file that a class is looked up as: an entry with the name of the class, in a folder that can be
read, that is not taken for a folder. -/
inductive ClassFile (sources : Sources) : (name path : String) → Entry → Prop
  | mk {folder file : String} {entry : Entry} {place : Place}
    (hread : Walk.folderAt? sources.fs (Walk.location (Path.tidy sources.root) folder) = some place)
    (hfolder : ∀ name ∈ namesIn folder, IsName name)
    (hlisted : (file, entry) ∈ sources.fs.listing place) (hjava : endsWith ".java" file = true)
    (hentry : isFolderEntry sources.fs
      (Walk.location (Path.tidy sources.root) (Path.child folder file)) entry = false) :
    ClassFile sources (className file) (Path.child folder file) entry

theorem exists_of_mem_javaFilesBelow (hfs : sources.fs.WellFormed) {depth : Nat} {path name : String}
    (hpath : ∀ name ∈ namesIn path, IsName name)
    (h : (name, target) ∈ javaFilesBelow sources.fs (Path.tidy sources.root) depth path) :
    ∃ file entry, sources.ClassFile name file entry ∧ target = Path.normalize file := by
  induction depth generalizing path with
  | zero => exact nomatch h
  | succ depth ih =>
    rw [javaFilesBelow] at h
    split at h
    · exact nomatch h
    · next place hread =>
      rcases List.mem_append.1 h with hfile | hfolder
      · obtain ⟨⟨file, entry⟩, hlisted, hclass⟩ := List.mem_map.1 hfile
        obtain ⟨hlisted, hkept⟩ := List.mem_filter.1 hlisted
        obtain ⟨rfl, rfl⟩ := Prod.mk.inj hclass
        obtain ⟨hjava, hentry⟩ := Bool.and_eq_true_iff.1 hkept
        exact ⟨_, _, .mk hread hpath hlisted hjava (by simpa using hentry), rfl⟩
      · obtain ⟨⟨folder, entry⟩, hlisted, hbelow⟩ := List.mem_flatMap.1 hfolder
        have hname := hfs.isName_of_mem_listing (List.mem_filter.1 hlisted).1
        exact ih (isName_of_child hpath hname) hbelow

theorem exists_of_javaClass? (hfs : sources.fs.WellFormed) {name : String}
    (h : sources.javaClass? name = some target) :
    ∃ file entry, sources.ClassFile name file entry ∧ target = Path.normalize file := by
  obtain ⟨before, after, hclasses, -⟩ := List.lookup_eq_some_iff.1 h
  have hmem : (name, target) ∈ sources.javaClasses := by simp [hclasses]
  exact exists_of_mem_javaFilesBelow hfs (by simp [namesIn]) hmem

namespace ClassFile

variable {name path : String} {entry : Entry}

theorem descends (hfs : sources.fs.WellFormed) (h : sources.ClassFile name path entry) :
    Path.Descends path := by
  cases h with
  | mk hread hfolder hlisted hjava hentry =>
    have hname := hfs.isName_of_mem_listing hlisted
    exact Path.descends_of_names (child_ne_empty hname) (isName_of_child hfolder hname)

/-- A regular file is found by its path, unless that is too long. -/
theorem isFile {bytes : List UInt8} (hfs : sources.fs.WellFormed)
    (h : sources.ClassFile name path (.file bytes))
    (hsize : (Path.under sources.root path).utf8ByteSize < pathLimit)
    (hnull : '\x00' ∉ (Path.under sources.root path).toList) :
    sources.fs.isFile (Path.under sources.root path) = .ok true := by
  have hsteps := h.descends hfs
  cases h with
  | @mk folder file _ place hread hfolder hlisted hjava hentry =>
    have hname := hfs.isName_of_mem_listing hlisted
    have hnames : components (Path.child folder file) = namesIn folder ++ [file] := by
      rw [← namesIn_child hname, namesIn, if_neg (by simpa using child_ne_empty hname)]
    have hplace := resolveFrom_of_location hfolder (Walk.folderAt?_eq_some_iff.1 hread)
    obtain ⟨-, left, -, hrest⟩ := exists_left_of_resolveFrom hplace
    have hfound : sources.fs.resolve (Path.under sources.root (Path.child folder file)) =
        .ok (place ++ [file], .file bytes) := by
      rw [resolve_under_eq _ _ hsteps, if_neg (Nat.not_le.2 hsize), hnames, ← List.append_assoc]
      exact (hrest 0 [file]).trans (hfs.resolveFrom_entry (hfs.mem_listing_iff.1 hlisted) rfl)
    rw [FileSystem.isFile, probe, String.contains_char_eq, if_neg (by simpa using hnull), hfound]
    rfl

end ClassFile

end Sources

open Extraction

/-- The file of an import is there, and its path is as it should be unless it is absolute. The file of
an inherited class is named by the key of its path, which is never absolute. If the key is the path, then
all is as it should be unless there is no regular file at it; and there is one if the entry that the class
is looked up as is one, unless its path is too long. -/
theorem targets_of_extract {sources : Sources} {paths : List String} {result : Extraction}
    (hfs : sources.fs.WellFormed) (h : extract sources paths = .ok result) :
    ∀ edge ∈ result.edges,
      (edge.kind = "import" →
        sources.fs.isFile (Path.under sources.root edge.target) = .ok true ∧
          (sources.Lands edge.target ↔ startsWith "/" edge.target = false)) ∧
      (edge.kind ≠ "import" → startsWith "/" edge.target = false ∧
        ∃ name file entry, sources.ClassFile name file entry ∧ edge.target = Path.normalize file ∧
          (Path.normalize file = file →
            (sources.Lands edge.target ↔
              sources.fs.isFile (Path.under sources.root edge.target) = .ok true) ∧
            (entry.isFile = true → (Path.under sources.root file).utf8ByteSize < pathLimit →
              '\x00' ∉ (Path.under sources.root file).toList → sources.Lands edge.target))) := by
  intro edge hedge
  obtain ⟨path, -, hyields⟩ := yields_of_extract h edge hedge
  cases hyields with
  | imported hscans href hsearch hfound =>
    exact ⟨fun _ => Sources.lands_iff_of_firstFile? hfound, fun hkind => absurd rfl hkind⟩
  | @inherited text heritage name target hscans hname hclass =>
    obtain ⟨file, entry, hfile, rfl⟩ := Sources.exists_of_javaClass? hfs hclass
    have hheritage : heritageKind heritage ≠ "import" := by cases heritage <;> decide
    refine ⟨fun hkind => absurd hkind hheritage, fun _ =>
      ⟨Path.not_startsWith_normalize file, name, file, entry, hfile, rfl, fun hkey => ?_⟩⟩
    have hlands : sources.Lands file ↔ _ := Sources.lands_iff_of_descends (hfile.descends hfs)
    rw [hkey]
    refine ⟨hlands, fun hregular hsize hnull => hlands.2 ?_⟩
    cases entry with
    | file bytes => exact hfile.isFile hfs hsize hnull
    | folder | link | pipe => exact nomatch hregular

theorem targets_of_extract_pair : ∃ result, extract pair ["a.py"] = .ok result ∧
    result.edges = [{ source := "a.py", target := "b.py" }] ∧ pair.Lands "b.py" := by
  have hresult := extract_single (@ofFile_pair "a.py" "b" "b.py" (by decide))
  obtain ⟨himport, -⟩ := targets_of_extract (by decide) hresult
    { source := "a.py", target := "b.py" } List.mem_cons_self
  exact ⟨_, hresult, rfl, (himport rfl).2.2 (by decide)⟩

/-! ## A link that leads nowhere -/

/-- The text of a class that extends another. -/
def derivedClass : List Char := "class App extends Base {}".toList

/-- A repository of a class and a link by the name of another that leads nowhere. -/
def dangling : Sources where
  fs := { entries := [(["repo"], .folder), (["repo", "App.java"], .file (Utf8.encode derivedClass)),
    (["repo", "Base.java"], .link "nowhere")] }
  root := "/repo"

theorem resolve_dangling : dangling.fs.resolve "/repo" = .ok (["repo"], .folder) ∧
    dangling.fs.resolve "/repo/App.java" =
      .ok (["repo", "App.java"], .file (Utf8.encode derivedClass)) ∧
    dangling.fs.resolve "/repo/Base.java" = .error .notFound :=
  ⟨resolve_of_within 4 (by decide) (by decide),
    resolve_of_within 4 (by decide) (by decide),
    resolve_of_within 5 (by decide) (by decide)⟩

theorem scans_dangling : dangling.Scans (Path.normalize "App.java") .java derivedClass := by
  have hkey : Path.normalize "App.java" = "App.java" := by decide
  have hunder : Path.under dangling.root "App.java" = "/repo/App.java" := by decide
  rw [hkey]
  refine ⟨by decide, Utf8.encode derivedClass, ?_, by decide +kernel⟩
  rw [hunder, readBytes, resolve_dangling.2.1, String.contains_char_eq, if_neg (by decide)]

/-- The link is in the index, since it is no link to a folder. -/
theorem javaClasses_dangling :
    dangling.javaClasses = [("App", "App.java"), ("Base", "Base.java")] := by
  have hroot : Path.tidy dangling.root = "/repo" := by decide
  have hcount : Walk.folderCount dangling.fs = 2 := rfl
  have hread : Walk.folderAt? dangling.fs (Walk.location "/repo" "") = some ["repo"] := by
    exact Walk.folderAt?_eq_some_iff.2 resolve_dangling.1
  have hlisting : dangling.fs.listing ["repo"] =
      [("App.java", .file (Utf8.encode derivedClass)), ("Base.java", .link "nowhere")] := by
    cbv
  have hbase : Sources.isFolderEntry dangling.fs (Walk.location "/repo" (Path.child "" "Base.java"))
      (.link "nowhere") = false := by
    have hlocation : Walk.location "/repo" (Path.child "" "Base.java") = "/repo/Base.java" := by
      decide
    rw [hlocation, Sources.isFolderEntry, Walk.folderAt?, resolve_dangling.2.2]
    rfl
  rw [Sources.javaClasses, hroot, hcount, Sources.javaFilesBelow, hread]
  dsimp only
  rw [hlisting]
  have happ : Sources.isFolderEntry dangling.fs (Walk.location "/repo" (Path.child "" "App.java"))
      (.file (Utf8.encode derivedClass)) = false := rfl
  have hjava : endsWith ".java" "App.java" = true ∧ endsWith ".java" "Base.java" = true := by
    decide
  simp only [List.filter_cons, List.filter_nil, happ, hbase, hjava, Entry.isFolder, Bool.not_false,
    Bool.and_true, Bool.false_and, if_true, Bool.false_eq_true, if_false, List.flatMap_nil,
    List.append_nil, List.map_cons, List.map_nil]
  decide

/-- The class that the link is named for is the target of an edge, and there is no file at it. -/
theorem extract_dangling : dangling.fs.WellFormed ∧ ∃ result, extract dangling ["App.java"] = .ok result ∧
    ∃ edge ∈ result.edges, dangling.fs.isFile (Path.under dangling.root edge.target) = .ok false := by
  have hkey : Path.normalize "App.java" = "App.java" := by decide
  have himports : Language.java.imports derivedClass = [] := by decide +kernel
  have hheritage : Java.heritage derivedClass = [(.extends, "Base")] := by decide +kernel
  have hedges : heritageEdges dangling "App.java" derivedClass =
      [⟨"App.java", "Base.java", "extends", true⟩] := by
    rw [heritageEdges, javaClasses_dangling, hheritage]
    decide
  have hresult : extract dangling ["App.java"] = .ok
      { edges := [⟨"App.java", "Base.java", "extends", true⟩]
        exports := [("App.java", Language.java.exports derivedClass)]
        languages := [("App.java", detectLanguage "App.java")] } := by
    rw [extract, List.foldlM_cons, addFile_of_scans {} scans_dangling, himports, hkey, hedges]
    rfl
  have hunder : Path.under dangling.root "Base.java" = "/repo/Base.java" := by decide
  refine ⟨by decide, _, hresult, _, List.mem_cons_self, ?_⟩
  rw [hunder, FileSystem.isFile, FileSystem.probe, String.contains_char_eq, if_neg (by decide),
    resolve_dangling.2.2]
  rfl

end CodeReview.Dependency
