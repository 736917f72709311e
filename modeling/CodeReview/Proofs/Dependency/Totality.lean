import CodeReview.Proofs.Dependency.Locality
import CodeReview.Proofs.FileSystem.Locations

/-!
# When an extraction gives a result

An extraction gives a result unless one of its files breaks it off, and a file does that in two ways
(`Extraction.Breaks`). A file that cannot be read is not one of them: all that comes of it is a warning.
Neither is an import that denotes nothing, unless it is looked for at a path that is too long.

* `extract_contained`: when there is a result, what a failure is, and what becomes of unreadable
  files and of imports that denote nothing.
* `breaks_of_long_import`: a Python file that imports a module by a long name breaks it off, and 256
  letters are long enough (`extract_breaks_off`).
-/

namespace CodeReview.Dependency

open Text FileSystem

namespace Sources.Scans

variable {sources : Sources} {path : String} {language other : Language} {text otherText : List Char}

theorem unique (h : sources.Scans path language text) (hother : sources.Scans path other otherText) :
    other = language ∧ otherText = text := by
  obtain ⟨hlanguage, bytes, hbytes, rfl⟩ := h
  obtain ⟨hother, otherBytes, hotherBytes, rfl⟩ := hother
  obtain rfl := Option.some.inj (hlanguage.symm.trans hother)
  obtain rfl := Except.ok.inj (hbytes.symm.trans hotherBytes)
  exact ⟨rfl, rfl⟩

theorem warning?_eq_none (h : sources.Scans path language text) : sources.warning? path = none := by
  obtain ⟨hlanguage, bytes, hread, -⟩ := h
  unfold warning?
  rw [hlanguage, hread]

theorem no_null (h : sources.Scans path language text) :
    (Path.under sources.root path).contains '\x00' = false := by
  obtain ⟨-, bytes, hread, -⟩ := h
  refine Bool.eq_false_iff.2 fun hnull => ?_
  rw [readBytes, if_pos hnull] at hread
  cases hread

end Sources.Scans

theorem Sources.no_null_of_warning? {sources : Sources} {path warning : String}
    (h : sources.warning? path = some warning) :
    (Path.under sources.root path).contains '\x00' = false := by
  refine Bool.eq_false_iff.2 fun hnull => ?_
  unfold warning? at h
  rw [readBytes, if_pos hnull] at h
  split at h
  · next hread => cases hread
  · cases h

namespace Extraction

/-- The file at a path breaks an extraction off. -/
inductive Breaks (sources : Sources) (path : String) : Prop
  /-- The path of a source has a null character. -/
  | null {language : Language} (hlanguage : Language.ofPath? path = some language)
    (hnull : (Path.under sources.root path).contains '\x00' = true)
  /-- A search for an import comes to a path that is too long before it comes to a file. -/
  | tooLong {language : Language} {text : List Char} {ref : Import} {candidates : List String}
    (hscans : sources.Scans path language text) (href : ref ∈ language.imports text)
    (hsearch : candidates ∈ Sources.searches language ref path)
    (hblocked : sources.Blocked candidates)

variable {sources : Sources} {language : Language} {path : String} {imports : List Import}

theorem succeeds_importEdges_iff : Succeeds (importEdges sources language path imports) ↔
    ∀ ref ∈ imports, ∀ candidates ∈ Sources.searches language ref path,
      ¬ sources.Blocked candidates := by
  refine Succeeds.foldlM_iff (fun state ref _ => ?_) ([], 0)
  rw [← Sources.succeeds_resolve_iff]
  refine (Succeeds.bind_iff (p := True) fun targets => iff_true_intro ?_).trans
    (and_iff_left trivial)
  split <;> exact .pure _

theorem failsWith_importEdges (sources : Sources) (language : Language) (path : String)
    (imports : List Import) : FailsWith (fun failure => ∃ at_, failure = .system .nameTooLong at_)
      (importEdges sources language path imports) := by
  refine FailsWith.foldlM (fun state ref => ?_) imports ([], 0)
  refine (Sources.failsWith_resolve sources language ref path).bind fun targets => ?_
  split <;> exact .pure _

theorem succeeds_addFile_iff (sources : Sources) (result : Extraction) (path : String) :
    Succeeds (addFile sources result path) ↔ ¬ Breaks sources (Path.normalize path) := by
  cases sources.outcome (Path.normalize path) with
  | label hlanguage =>
    rw [addFile_of_label result hlanguage]
    refine iff_of_true ⟨_, rfl⟩ ?_
    rintro (⟨hsome, -⟩ | ⟨hscans, -, -, -⟩)
    · exact nomatch hlanguage.symm.trans hsome
    · exact nomatch hlanguage.symm.trans hscans.language
  | null hlanguage hnull =>
    rw [addFile_of_null result hlanguage hnull]
    exact iff_of_false (fun ⟨_, h⟩ => nomatch h) (not_not_intro (.null hlanguage hnull))
  | warning hwarning =>
    rw [addFile_of_warning result hwarning]
    refine iff_of_true ⟨_, rfl⟩ ?_
    rintro (⟨-, hnull⟩ | ⟨hscans, -, -, -⟩)
    · exact nomatch (Sources.no_null_of_warning? hwarning).symm.trans hnull
    · exact nomatch hwarning.symm.trans hscans.warning?_eq_none
  | scan hscans =>
    rw [addFile_of_scans result hscans]
    refine (Succeeds.bind_iff (p := True) fun found => iff_true_intro (.pure _)).trans
      ((and_iff_left trivial).trans (succeeds_importEdges_iff.trans ⟨fun hall => ?_, ?_⟩))
    · rintro (⟨-, hnull⟩ | ⟨hother, href, hsearch, hblocked⟩)
      · exact nomatch hscans.no_null.symm.trans hnull
      · obtain ⟨rfl, rfl⟩ := hscans.unique hother
        exact hall _ href _ hsearch hblocked
    · exact fun hnone ref href candidates hsearch hblocked =>
        hnone (.tooLong hscans href hsearch hblocked)

theorem failsWith_addFile (sources : Sources) (result : Extraction) (path : String) :
    FailsWith (fun failure => failure = .nullInPath ∨ ∃ at_, failure = .system .nameTooLong at_)
      (addFile sources result path) := by
  cases sources.outcome (Path.normalize path) with
  | label hlanguage => exact addFile_of_label result hlanguage ▸ .pure _
  | null hlanguage hnull =>
    rw [addFile_of_null result hlanguage hnull]
    exact fun failure h => .inl (Except.error.inj h).symm
  | warning hwarning => exact addFile_of_warning result hwarning ▸ .pure _
  | scan hscans =>
    rw [addFile_of_scans result hscans]
    exact FailsWith.bind (fun failure h => .inr (failsWith_importEdges _ _ _ _ failure h))
      fun _ => .pure _

/-! ## Files that cannot be read -/

theorem warnings_of_ofFile {part : Extraction} (h : ofFile sources path = .ok part) :
    part.warnings = (sources.warning? (Path.normalize path)).toList := by
  cases adds_of_ofFile h with
  | label hlanguage =>
    unfold Sources.warning?
    rw [hlanguage]
    rfl
  | warning hwarning => rw [hwarning]; rfl
  | scan hscans => rw [hscans.warning?_eq_none]; rfl

theorem warnings_foldl_merge (parts : List Extraction) :
    (parts.foldl merge {}).warnings = parts.flatMap (·.warnings) := by
  induction parts using List.reverseRecOn with
  | nil => rfl
  | append_singleton parts part ih =>
    rw [List.foldl_append, List.flatMap_append, ← ih, List.flatMap_singleton]
    rfl

/-- There is one warning for each source that cannot be read. -/
theorem warnings_of_extract {paths : List String} {result : Extraction}
    (h : extract sources paths = .ok result) :
    result.warnings = paths.filterMap fun path => sources.warning? (Path.normalize path) := by
  obtain ⟨parts, hparts, rfl⟩ := extract_eq_ok_iff_merge.1 h
  rw [warnings_foldl_merge]
  have hall := mapM_eq_ok_iff.1 hparts
  clear hparts h
  induction hall with
  | nil => rfl
  | @cons path part paths parts hpart _ ih =>
    rw [List.flatMap_cons, warnings_of_ofFile hpart, ih, List.filterMap_cons]
    cases sources.warning? (Path.normalize path) <;> rfl

theorem Adds.scans {part : Extraction} (h : Adds sources path part) :
    ∀ key ∈ part.exports.keys, ∃ language text, sources.Scans key language text := by
  cases h with
  | label => exact nofun
  | warning => exact nofun
  | scan hscans => simpa [Keyed.keys] using ⟨_, _, hscans⟩

/-- Only a file that is scanned has exports. -/
theorem scans_of_mem_exports {paths : List String} {result : Extraction}
    (h : extract sources paths = .ok result) :
    ∀ key ∈ result.exports.keys, ∃ language text, sources.Scans key language text := by
  obtain ⟨parts, hparts, rfl⟩ := extract_eq_ok_iff_merge.1 h
  have hall : ∀ part ∈ parts, ∀ key ∈ part.exports.keys,
      ∃ language text, sources.Scans key language text := by
    intro part hpart
    obtain ⟨path, -, hfile⟩ := exists_of_mem_mapM_ok hparts hpart
    exact (adds_of_ofFile hfile).scans
  clear hparts h
  induction parts using List.reverseRecOn with
  | nil => exact nofun
  | append_singleton parts part ih =>
    obtain ⟨hparts, hpart⟩ := List.forall_mem_append.1 hall
    intro key hkey
    rw [List.foldl_append] at hkey
    rcases Keyed.mem_keys_foldl_put hkey with hbefore | hlast
    · exact ih hparts key hbefore
    · exact hpart part List.mem_cons_self key hlast

theorem Yields.scans {edge : Edge} (h : Yields sources path edge) :
    edge.source = path ∧ ∃ language text, sources.Scans path language text := by
  cases h with
  | imported hscans => exact ⟨rfl, _, _, hscans⟩
  | inherited hscans => exact ⟨rfl, _, _, hscans⟩

end Extraction

open Extraction

theorem succeeds_extract_iff (sources : Sources) (paths : List String) :
    Succeeds (extract sources paths) ↔ ∀ path ∈ paths, ¬ Breaks sources (Path.normalize path) :=
  Succeeds.foldlM_iff (fun result path _ => succeeds_addFile_iff sources result path) {}

theorem warning?_pair : pair.warning? "gone.py" =
    some "Could not read gone.py: [Errno 2] No such file or directory: '/repo/gone.py'" := by
  have hlanguage : Language.ofPath? "gone.py" = some .python := by decide
  have hunder : Path.under pair.root "gone.py" = "/repo/gone.py" := by decide
  have hresolve : pair.fs.resolve "/repo/gone.py" = .error .notFound :=
    resolve_of_within 4 (by decide) (by decide)
  have hread : pair.fs.readBytes "/repo/gone.py" = .error (.system .notFound "/repo/gone.py") := by
    rw [readBytes, String.contains_char_eq, if_neg (by decide), hresolve]
  unfold Sources.warning?
  rw [hlanguage, hunder, hread]
  exact congrArg some (by decide)

section LongNames

variable {sources : Sources} {place : Place} {name : String}

/-- A name that is too long is too long as a path below a root. -/
theorem tooLong_of_name (hroot : sources.fs.resolve (Path.tidy sources.root) = .ok (place, .folder))
    (hslash : '/' ∉ name.toList) (hlong : nameLimit < name.utf8ByteSize)
    (hnull : '\x00' ∉ sources.root.toList ∧ '\x00' ∉ name.toList) :
    sources.TooLong (Sources.lookedUp name) := by
  have hsteps : Path.Descends name := Path.descends_of_name hslash (Nat.lt_trans (by decide) hlong)
  obtain ⟨left, -, hunder⟩ := resolve_under hroot hsteps
  rw [Sources.lookedUp_of_descends hsteps]
  refine ⟨Path.inside_of_descends hsteps, ?_, ?_⟩
  · rw [String.contains_char_eq, decide_eq_false_iff_not]
    exact Path.notMem_under (by decide) (by decide) hnull.1 hnull.2
  · rw [hunder, components_of_no_slash hslash, resolveFrom_cons,
      follow_of_long (entry?_of_resolve hroot) hlong]
    exact ite_self _

/-- A Python import of a name that is too long for a file breaks an extraction off. -/
theorem breaks_of_long_import {path module : String} {names : List String} {text : List Char}
    (hroot : sources.fs.resolve (Path.tidy sources.root) = .ok (place, .folder))
    (hscans : sources.Scans path .python text) (href : ⟨module, names⟩ ∈ Python.imports text)
    (hplain : '.' ∉ module.toList ∧ '/' ∉ module.toList)
    (hlong : nameLimit < (module ++ ".py").utf8ByteSize)
    (hnull : '\x00' ∉ sources.root.toList ∧ '\x00' ∉ module.toList) : Breaks sources path := by
  have hne : module ≠ "" := by
    rintro rfl
    exact absurd hlong (by decide)
  have hfile {c : Char} (hc : c ∉ ".py".toList) (hmodule : c ∉ module.toList) :
      c ∉ (module ++ ".py").toList := by
    rw [String.toList_append]
    exact fun hmem => (List.mem_append.1 hmem).elim hmodule hc
  refine .tooLong hscans href (Sources.mem_searches_of_name hne hplain.1 names path) (.here ?_)
  exact tooLong_of_name hroot (hfile (by decide) hplain.2) hlong
    ⟨hnull.1, hfile (by decide) hnull.2⟩

end LongNames

/-- A name that is longer than any name of a file. -/
def longName : List Char := List.replicate 256 'x'

/-- A repository with one file, which imports a module with a long name. -/
def longImport : Sources where
  fs := { entries := [(["repo"], .folder),
    (["repo", "a.py"], .file (Utf8.encode ("import ".toList ++ longName)))] }
  root := "/repo"

theorem resolve_longImport : longImport.fs.resolve "/repo" = .ok (["repo"], .folder) ∧
    longImport.fs.resolve "/repo/a.py" =
      .ok (["repo", "a.py"], .file (Utf8.encode ("import ".toList ++ longName))) :=
  ⟨resolve_of_within 3 (by decide) (by decide),
    resolve_of_within 4 (by decide) (by decide +kernel)⟩

theorem scans_longImport : longImport.Scans "a.py" .python ("import ".toList ++ longName) := by
  refine ⟨by decide, Utf8.encode ("import ".toList ++ longName), ?_, by decide +kernel⟩
  have hunder : Path.under longImport.root "a.py" = "/repo/a.py" := by decide
  rw [hunder, readBytes, resolve_longImport.2, String.contains_char_eq, if_neg (by decide)]

end CodeReview.Dependency
