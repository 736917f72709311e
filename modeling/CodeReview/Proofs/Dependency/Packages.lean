import CodeReview.Proofs.Dependency.Search

/-!
# Relative and absolute Python imports

A Python import names its module by packages: from the root, or from the folder of the importing file
and as many folders further up as there are dots beyond the first. Both ways end in one search
(`Sources.resolveModule`), so the question is which packages it is made for.

* `resolvePython_absolute`: an import without dots in front is made for the parts of its own name.
* `resolvePython_dotted`: one with dots in front is made for folders of the importing file, and then
  the parts of its name.
* `resolvePython_relative`: so a relative import denotes what the absolute one does that spells the
  folders out, and nothing if it leads out of the repository.
-/

namespace CodeReview.Dependency

open Text FileSystem

/-- A folder that a package can be named by. -/
structure IsPackage (folder : String) : Prop where
  ne_empty : folder ≠ ""
  no_dot : '.' ∉ folder.toList
  no_slash : '/' ∉ folder.toList

/-- A name of a module that does not start with a dot. -/
structure IsModule (module : String) : Prop where
  ne_empty : module ≠ ""
  no_dot : module.toList.head? ≠ some '.'

/-- A module as seen from a file: one dot for its folder, and one for each level above it. -/
def dotted (levels : Nat) (module : String) : String :=
  String.ofList (List.replicate (levels + 1) '.') ++ module

/-- A module below packages. -/
def qualified (packages : List String) (module : String) : String := join "." (packages ++ [module])

namespace IsModule

variable {module : String}

theorem trimStart_eq (h : IsModule module) : Chars.trimStart Path.isDot module.toList = module.toList := by
  obtain ⟨c, cs, hchars⟩ := List.exists_cons_of_ne_nil (mt String.toList_eq_nil_iff.1 h.ne_empty)
  have hc : Path.isDot c = false := by
    refine beq_eq_false_iff_ne.2 ?_
    rintro rfl
    exact h.no_dot (by rw [hchars, List.head?_cons])
  rw [hchars]
  exact List.dropWhile_cons_of_neg (by simp [hc])

theorem trimStart_dotted (h : IsModule module) (levels : Nat) :
    Chars.trimStart Path.isDot (dotted levels module).toList = module.toList := by
  rw [dotted, String.toList_append, String.toList_ofList, Chars.trimStart, List.dropWhile_append_of_pos,
    ← Chars.trimStart, h.trimStart_eq]
  intro c hc
  exact beq_iff_eq.2 (List.eq_of_mem_replicate hc)

end IsModule

/-! ## Qualified names -/

section Names

variable {packages : List String} {module : String}

theorem qualified_cons (package : String) (packages : List String) (module : String) :
    qualified (package :: packages) module = package ++ "." ++ qualified packages module := by
  rw [qualified, qualified, join, join]
  obtain ⟨next, rest, hrest⟩ := List.exists_cons_of_ne_nil
    (List.append_ne_nil_of_right_ne_nil packages (List.cons_ne_nil module []))
  rw [List.cons_append, hrest, String.intercalate_cons_cons]

/-- The parts of a qualified name are its packages, and then the parts of the module. -/
theorem splitOn_qualified (h : ∀ package ∈ packages, IsPackage package) :
    splitOn '.' (qualified packages module) = packages ++ splitOn '.' module := by
  induction packages with
  | nil => rw [qualified, List.nil_append, join, String.intercalate_singleton, List.nil_append]
  | cons package packages ih =>
    rw [List.forall_mem_cons] at h
    have hlist : (package ++ "." ++ qualified packages module).toList =
        package.toList ++ '.' :: (qualified packages module).toList := by
      simp [String.toList_append]
    rw [qualified_cons, splitOn, hlist, Chars.splitOn_append, Chars.splitOn_of_notMem h.1.no_dot,
      List.map_append, List.map_singleton, String.ofList_toList, ← splitOn, ih h.2]
    rfl

/-- A qualified name does not start with a dot itself. -/
theorem IsModule.qualified (hmodule : IsModule module) (h : ∀ package ∈ packages, IsPackage package) :
    IsModule (qualified packages module) := by
  cases packages with
  | nil =>
    rw [Dependency.qualified, List.nil_append, join, String.intercalate_singleton]
    exact hmodule
  | cons package packages =>
    obtain ⟨hpackage, -⟩ := List.forall_mem_cons.1 h
    obtain ⟨c, cs, hchars⟩ :=
      List.exists_cons_of_ne_nil (mt String.toList_eq_nil_iff.1 hpackage.ne_empty)
    have hfirst : (Dependency.qualified (package :: packages) module).toList.head? = some c := by
      rw [qualified_cons, String.toList_append, String.toList_append, hchars]
      rfl
    refine ⟨?_, ?_⟩
    · intro hempty
      rw [hempty] at hfirst
      cases hfirst
    · rw [hfirst]
      rintro ⟨⟩
      exact hpackage.no_dot (hchars ▸ List.mem_cons_self)

end Names

namespace Sources

variable {folders : List String} {file module : String}

/-- An import without dots in front is made for the parts of its name, from whatever file. -/
theorem resolvePython_absolute (sources : Sources) (hmodule : IsModule module) (names : List String)
    (importer : String) :
    sources.resolvePython ⟨module, names⟩ importer =
      sources.resolveModule (splitOn '.' module) true names := by
  have hne : module.toList.isEmpty = false := by simpa using hmodule.ne_empty
  rw [resolvePython]
  dsimp only
  rw [hmodule.trimStart_eq, if_pos (Nat.sub_self _), hne, if_neg Bool.false_ne_true]
  rfl

/-- An import with dots in front is made for the folders that are left of those of the file, and then
the parts of its name. With more levels than folders it is not made. -/
theorem resolvePython_dotted (sources : Sources) (hfolders : ∀ folder ∈ folders, IsPackage folder)
    (hfile : '/' ∉ file.toList) (hmodule : IsModule module) (levels : Nat) (names : List String) :
    sources.resolvePython ⟨dotted levels module, names⟩ (join "/" (folders ++ [file])) =
      if folders.length < levels then .ok []
      else
        sources.resolveModule (folders.take (folders.length - levels) ++ splitOn '.' module) true
          names := by
  have hne : module.toList.isEmpty = false := by simpa using hmodule.ne_empty
  have hdots : (dotted levels module).toList.length - module.toList.length = levels + 1 := by
    rw [dotted, String.toList_append, List.length_append, String.toList_ofList, List.length_replicate,
      Nat.add_sub_cancel]
  have hparts : splitOn '/' (join "/" (folders ++ [file])) = folders ++ [file] := by
    refine components_join (fun name hname => ?_) (by simp)
    rcases List.mem_append.1 hname with hname | hname
    · exact (hfolders name hname).no_slash
    · exact List.mem_singleton.1 hname ▸ hfile
  rw [resolvePython]
  dsimp only
  rw [hmodule.trimStart_dotted, hdots, if_neg (Nat.succ_ne_zero levels), hparts, List.dropLast_concat,
    Nat.add_sub_cancel, hne, if_neg Bool.false_ne_true]
  rfl

/-- A relative import from a file in packages denotes what the absolute import does that names the
packages, whichever file that one stands in. It denotes nothing if it has more levels than there are
packages. -/
theorem resolvePython_relative (sources : Sources) (hfolders : ∀ folder ∈ folders, IsPackage folder)
    (hfile : '/' ∉ file.toList) (hmodule : IsModule module) (levels : Nat) (names : List String) :
    (levels ≤ folders.length → ∀ importer,
      sources.resolvePython ⟨dotted levels module, names⟩ (join "/" (folders ++ [file])) =
        sources.resolvePython ⟨qualified (folders.take (folders.length - levels)) module, names⟩
          importer) ∧
    (folders.length < levels →
      sources.resolvePython ⟨dotted levels module, names⟩ (join "/" (folders ++ [file])) = .ok []) := by
  rw [resolvePython_dotted sources hfolders hfile hmodule]
  refine ⟨fun hlevels importer => ?_, fun hlevels => if_pos hlevels⟩
  have hpackages : ∀ folder ∈ folders.take (folders.length - levels), IsPackage folder :=
    fun folder hfolder => hfolders folder (List.mem_of_mem_take hfolder)
  rw [if_neg (Nat.not_lt.2 hlevels), resolvePython_absolute sources (hmodule.qualified hpackages),
    splitOn_qualified hpackages]

/-! ### A module and one of its names -/

/-- A repository with a module and a folder of the same name. -/
def layered : Sources where
  fs := { entries := [(["repo"], .folder), (["repo", "app"], .folder), (["repo", "app", "util"], .folder),
    (["repo", "app", "util", "text"], .folder), (["repo", "app", "util", "text", "trim.py"], .file []),
    (["repo", "app", "util", "text.py"], .file [])] }
  root := "/repo"

theorem firstFile?_layered :
    layered.firstFile? ["app/util/text.py", "app/util/text/__init__.py"] =
      .ok (some "app/util/text.py") ∧
    layered.firstFile? ["app/util/text/trim.py", "app/util/text/trim/__init__.py"] =
      .ok (some "app/util/text/trim.py") := by
  have hsteps : Path.Descends "app/util/text.py" ∧ Path.Descends "app/util/text/trim.py" :=
    ⟨Path.descends_of_names (by decide) (by decide), Path.descends_of_names (by decide) (by decide)⟩
  have hunder : Path.under layered.root "app/util/text.py" = "/repo/app/util/text.py" ∧
      Path.under layered.root "app/util/text/trim.py" = "/repo/app/util/text/trim.py" := by
    decide
  have hfound : layered.fs.resolve "/repo/app/util/text.py" =
        .ok (["repo", "app", "util", "text.py"], .file []) ∧
      layered.fs.resolve "/repo/app/util/text/trim.py" =
        .ok (["repo", "app", "util", "text", "trim.py"], .file []) :=
    ⟨resolve_of_within 6 (by decide) (by decide),
      resolve_of_within 7 (by decide) (by decide)⟩
  exact ⟨firstFile?_of_resolve hsteps.1 (by decide) (hunder.1 ▸ hfound.1),
    firstFile?_of_resolve hsteps.2 (by decide) (hunder.2 ▸ hfound.2)⟩

/-- Two dots lead from `app/core/main.py` to `app`, and four lead out. -/
theorem resolvePython_relative_layered : (∀ folder ∈ ["app", "core"], IsPackage folder) ∧
    '/' ∉ "main.py".toList ∧ IsModule "util.text" ∧
    layered.resolvePython ⟨"..util.text", ["trim"]⟩ "app/core/main.py" =
      layered.resolvePython ⟨"app.util.text", ["trim"]⟩ "setup.py" ∧
    layered.resolvePython ⟨"..util.text", ["trim"]⟩ "app/core/main.py" =
      .ok ["app/util/text.py", "app/util/text/trim.py"] ∧
    layered.resolvePython ⟨"....util.text", ["trim"]⟩ "app/core/main.py" = .ok [] := by
  have hfolders : ∀ folder ∈ ["app", "core"], IsPackage folder := by
    simp only [List.forall_mem_cons, List.not_mem_nil, IsEmpty.forall_iff, implies_true, and_true]
    exact ⟨⟨by decide, by decide, by decide⟩, ⟨by decide, by decide, by decide⟩⟩
  have hfile : '/' ∉ "main.py".toList := by decide
  have hmodule : IsModule "util.text" := ⟨by decide, by decide⟩
  have hrelative := (resolvePython_relative layered hfolders hfile hmodule 1 ["trim"]).1 (by decide)
  refine ⟨hfolders, hfile, hmodule, hrelative "setup.py", (hrelative "setup.py").trans ?_, ?_⟩
  · have hsearches : searches .python ⟨"app.util.text", ["trim"]⟩ "setup.py" =
        [["app/util/text.py", "app/util/text/__init__.py"],
          ["app/util/text/trim.py", "app/util/text/trim/__init__.py"]] := by
      decide
    change layered.resolvePython ⟨"app.util.text", ["trim"]⟩ "setup.py" = _
    rw [resolvePython_eq, ← searches.eq_2, hsearches, searchAll, List.mapM_cons, List.mapM_cons,
      firstFile?_layered.1, firstFile?_layered.2]
    rfl
  · exact (resolvePython_relative layered hfolders hfile hmodule 3 ["trim"]).2 (by decide)

end Sources

end CodeReview.Dependency
