import CodeReview.Proofs.Dependency.Targets
import CodeReview.Proofs.Path.Relative

/-!
# What the imports of a script denote

A script names what it imports by a path, from the root or from its own folder. Slashes, dots and folders
that are left again make many spellings of one location, and only the location counts.

* `denoted?`: the location that an import denotes.
* `candidatesAt`: the files that a location may stand for.
* `resolveJavaScript_confined`: an import denotes the first of them that is there, a file below the root;
  and it denotes nothing if its location is above the root.
-/

namespace CodeReview.Dependency

open Text FileSystem

namespace Sources

/-! ## Locations -/

/-- The location that an import of a script denotes, as seen from the root: from the root if it starts with
a slash, from the folder of the script if it starts with a dot. What follows a question mark does not
count. -/
def denoted? (specifier importer : String) : Option Path.Relative :=
  let path := onChars (fun cs => (Chars.splitFirst '?' cs).1) specifier
  if startsWith "/" path then some (Path.Relative.follow {} path)
  else if startsWith "." path then some ((Path.Relative.follow {} (Path.folder importer)).follow path)
  else none

/-- The files that a location stands for, in the order in which they are looked for: the one at its path if
the extension is known, those with one extension more unless it is the root, and those that stand for a
folder. -/
def candidatesAt (path : String) : List String :=
  (if knownExtensions.contains (lowercase (Path.suffix path)) then [path] else []) ++
    (if path = "" then [] else impliedExtensions.map (path ++ ·)) ++
    indexExtensions.map fun extension => Path.child path ("index" ++ extension)

variable {importer : String} {location : Path.Relative}

theorem simplify_base (base : String) :
    (if base.isEmpty then "." else Path.simplify base) = Path.simplify base := by
  split
  · next hempty =>
    rw [String.isEmpty_iff.1 hempty]
    decide
  · rfl

/-- The path that is looked for is the shortest one to the location. -/
theorem javascriptBase?_eq (himporter : startsWith "/" importer = false) (specifier : String) :
    javascriptBase? specifier importer = (denoted? specifier importer).map Path.Relative.text := by
  rw [javascriptBase?, denoted?]
  simp only [simplify_base]
  generalize onChars (fun cs => (Chars.splitFirst '?' cs).1) specifier = path
  by_cases hslash : startsWith "/" path = true
  · rw [if_pos hslash, if_pos hslash, Option.map_some, Option.map_some, onChars,
      Path.Relative.simplify_eq_text (Path.not_startsWith_trimStart _),
      Path.Relative.follow_trimStart, String.ofList_toList]
  rw [if_neg hslash, if_neg hslash]
  by_cases hdot : startsWith "." path = true
  · have hpath := Bool.eq_false_iff.2 hslash
    have hparent := Path.not_startsWith_of_prefix (Path.Relative.parent_prefix importer) himporter
    rw [if_pos hdot, if_pos hdot, Option.map_some, Option.map_some,
      Path.Relative.simplify_eq_text (Path.Relative.not_startsWith_joinTo hparent hpath),
      Path.Relative.follow_joinTo _ _ hpath, Path.Relative.follow_parent _ himporter]
  · rw [if_neg hdot, if_neg hdot, Option.map_none, Option.map_none]

theorem isDown_of_denoted? {specifier : String} (h : denoted? specifier importer = some location) :
    location.IsDown := by
  unfold denoted? at h
  dsimp only at h
  split at h
  · exact Option.some.inj h ▸ Path.Relative.isDown_follow Path.Relative.isDown_here _
  split at h
  · exact Option.some.inj h ▸
      Path.Relative.isDown_follow (Path.Relative.isDown_follow Path.Relative.isDown_here _) _
  · exact nomatch h

/-! ## Candidates -/

section Candidates

variable {path : String}

theorem descends_candidatesAt (h : path = "" ∨ Path.Descends path) :
    ∀ candidate ∈ candidatesAt path, Path.Descends candidate := by
  have himplied : ∀ extension ∈ impliedExtensions,
      '/' ∉ extension.toList ∧ 2 < extension.utf8ByteSize := by decide
  have hindex : ∀ extension ∈ indexExtensions, Path.Descends ("index" ++ extension) := by decide
  rcases h with rfl | hpath
  · decide
  rw [candidatesAt, if_neg (Path.ne_empty_of_descends hpath)]
  refine List.forall_mem_append.2 ⟨List.forall_mem_append.2 ⟨?_, ?_⟩, ?_⟩
  · split
    · exact List.forall_mem_singleton.2 hpath
    · exact List.forall_mem_nil _
  · refine List.forall_mem_map.2 fun extension hextension => ?_
    obtain ⟨hslash, hlong⟩ := himplied extension hextension
    exact Path.descends_append hpath hslash hlong
  · exact List.forall_mem_map.2 fun extension hextension =>
      Path.descends_child hpath (hindex extension hextension)

theorem lookedUp_candidatesAt (h : path = "" ∨ Path.Descends path) :
    (candidatesAt path).map lookedUp = candidatesAt path := by
  have hsame := List.map_congr_left fun candidate hcandidate =>
    lookedUp_of_descends (descends_candidatesAt h candidate hcandidate)
  rw [hsame, List.map_id']

theorem javascriptCandidates_eq (h : Path.Descends path) : javascriptCandidates path = candidatesAt path := by
  have hindex : ∀ extension ∈ indexExtensions, Path.Descends ("index" ++ extension) := by decide
  have hdot : (path == ".") = false := by
    refine beq_eq_false_iff_ne.2 ?_
    rintro rfl
    exact absurd h (by decide)
  rw [javascriptCandidates, candidatesAt, hdot, if_neg Bool.false_ne_true,
    if_neg (Path.ne_empty_of_descends h)]
  exact congrArg _ (List.map_congr_left fun extension hextension =>
    Path.joinTo_of_descends h (hindex extension hextension))

/-- What is looked for at a location that is not above the root. -/
theorem lookedUp_javascriptCandidates (h : location.IsDown) (hup : location.up = 0) :
    (javascriptCandidates location.text).map lookedUp = candidatesAt location.path := by
  by_cases hnone : location.names = []
  · rw [Path.Relative.text_eq_dot hup hnone, Path.Relative.path, hnone]
    decide
  · have hpath := Path.Relative.descends_path h hnone
    rw [Path.Relative.text_eq_path hup hnone, javascriptCandidates_eq hpath,
      lookedUp_candidatesAt (.inr hpath)]

theorem path_cases (h : location.IsDown) : location.path = "" ∨ Path.Descends location.path := by
  by_cases hnone : location.names = []
  · rw [Path.Relative.path, hnone]
    exact .inl rfl
  · exact .inr (Path.Relative.descends_path h hnone)

/-- A search goes through its candidates as they are looked for. -/
theorem firstFile?_eq_findM? (sources : Sources) (candidates : List String) :
    sources.firstFile? candidates = (candidates.map lookedUp).findM? sources.hasFile := by
  induction candidates with
  | nil => rfl
  | cons candidate rest ih =>
    rw [firstFile?_cons, ih, List.map_cons, List.findM?]
    exact bind_congr fun found => by cases found <;> rfl

end Candidates

/-- The first of the candidates that is a regular file below the root. -/
def firstAt? (sources : Sources) (location : Path.Relative) : Except Failure (Option String) :=
  (candidatesAt location.path).findM? fun path => sources.fs.isFile (Path.under sources.root path)

theorem findM?_hasFile (sources : Sources) {candidates : List String}
    (h : ∀ candidate ∈ candidates, Path.Descends candidate) :
    candidates.findM? sources.hasFile =
      candidates.findM? fun path => sources.fs.isFile (Path.under sources.root path) := by
  induction candidates with
  | nil => rfl
  | cons candidate rest ih =>
    obtain ⟨hcandidate, hrest⟩ := List.forall_mem_cons.1 h
    rw [List.findM?, List.findM?, ih hrest, hasFile, Path.inside_of_descends hcandidate,
      if_neg Bool.false_ne_true]

theorem firstFile?_eq_firstAt? (sources : Sources) (h : location.IsDown) (hup : location.up = 0) :
    sources.firstFile? (javascriptCandidates location.text) = sources.firstAt? location := by
  rw [firstFile?_eq_findM?, lookedUp_javascriptCandidates h hup,
    findM?_hasFile sources (descends_candidatesAt (path_cases h)), firstAt?]

theorem resolveJavaScript_denoted (sources : Sources) (himporter : startsWith "/" importer = false)
    (ref : Import) : sources.resolveJavaScript ref importer =
      match denoted? ref.specifier importer with
      | none => .ok []
      | some location => if location.up = 0 then Option.toList <$> sources.firstAt? location else .ok [] := by
  unfold resolveJavaScript
  rw [javascriptBase?_eq himporter]
  cases hdenoted : denoted? ref.specifier importer with
  | none => rfl
  | some location =>
    have hdown := isDown_of_denoted? hdenoted
    dsimp only [Option.map_some]
    by_cases hup : location.up = 0
    · rw [if_neg (mt (Path.Relative.text_outside_iff hdown).1 (not_not_intro hup)), if_pos hup,
        firstFile?_eq_firstAt? sources hdown hup, map_eq_pure_bind]
    · rw [if_pos ((Path.Relative.text_outside_iff hdown).2 hup), if_neg hup]
      rfl

theorem exists_of_findM? {candidates : List String} {holds : String → Except Failure Bool} {found : String}
    (h : candidates.findM? holds = .ok (some found)) : found ∈ candidates ∧ holds found = .ok true := by
  induction candidates with
  | nil => exact nomatch h
  | cons candidate rest ih =>
    rw [List.findM?] at h
    obtain ⟨answer, hanswer, hnext⟩ := exists_of_bind_ok h
    cases answer with
    | true =>
      obtain rfl := Option.some.inj (Except.ok.inj hnext)
      exact ⟨List.mem_cons_self, hanswer⟩
    | false =>
      obtain ⟨hmem, hfound⟩ := ih hnext
      exact ⟨List.mem_cons_of_mem candidate hmem, hfound⟩

theorem lands_of_firstAt? {sources : Sources} {target : String} (hdown : location.IsDown)
    (h : sources.firstAt? location = .ok (some target)) : sources.Lands target := by
  obtain ⟨hmem, hfile⟩ := exists_of_findM? h
  exact (lands_iff_of_descends (descends_candidatesAt (path_cases hdown) target hmem)).2 hfile

/-- An import of a script denotes the first file of its location if that is not above the root, and else
nothing. The file is one of the repository, under its simplified path. No other spelling of the location
denotes anything else, from whichever script. -/
theorem resolveJavaScript_confined (sources : Sources) (himporter : startsWith "/" importer = false)
    (ref : Import) :
    (sources.resolveJavaScript ref importer =
      match denoted? ref.specifier importer with
      | none => .ok []
      | some location =>
        if location.up = 0 then Option.toList <$> sources.firstAt? location else .ok []) ∧
    (∀ targets, sources.resolveJavaScript ref importer = .ok targets →
      ∀ target ∈ targets, sources.Lands target) ∧
    ∀ other script, startsWith "/" script = false →
      denoted? other.specifier script = denoted? ref.specifier importer →
        sources.resolveJavaScript other script = sources.resolveJavaScript ref importer := by
  have hresolve := resolveJavaScript_denoted sources himporter ref
  refine ⟨hresolve, fun targets htargets target htarget => ?_, fun other script hscript hsame => ?_⟩
  · rw [hresolve] at htargets
    cases hdenoted : denoted? ref.specifier importer with
    | none =>
      rw [hdenoted] at htargets
      exact absurd (Except.ok.inj htargets ▸ htarget) List.not_mem_nil
    | some location =>
      rw [hdenoted] at htargets
      dsimp only at htargets
      split at htargets
      · cases hfirst : sources.firstAt? location with
        | error failure =>
          rw [hfirst] at htargets
          exact nomatch htargets
        | ok found =>
          rw [hfirst] at htargets
          obtain rfl := Except.ok.inj htargets
          obtain rfl := Option.mem_toList.1 htarget
          exact lands_of_firstAt? (isDown_of_denoted? hdenoted) hfirst
      · exact absurd (Except.ok.inj htargets ▸ htarget) List.not_mem_nil
  · rw [hresolve, resolveJavaScript_denoted sources hscript other, hsame]

/-- A repository of two folders with a script in one of them. -/
def scripts : Sources where
  fs := { entries := [(["repo"], .folder), (["repo", "app"], .folder), (["repo", "util"], .folder),
    (["repo", "util", "fmt.js"], .file [])] }
  root := "/repo"

theorem isFile_scripts : scripts.fs.isFile (Path.under scripts.root "util/fmt.js") = .ok true := by
  have hunder : Path.under scripts.root "util/fmt.js" = "/repo/util/fmt.js" := by decide
  have hfound : scripts.fs.resolve "/repo/util/fmt.js" = .ok (["repo", "util", "fmt.js"], .file []) :=
    resolve_of_within 5 (by decide) (by decide)
  rw [hunder, isFile, probe, String.contains_char_eq, if_neg (by decide), hfound]
  rfl

theorem firstAt?_scripts : scripts.firstAt? { names := ["util", "fmt"] } = .ok (some "util/fmt.js") := by
  have hcandidates : candidatesAt (Path.Relative.path { names := ["util", "fmt"] }) =
      "util/fmt.js" :: (candidatesAt "util/fmt").tail := by decide
  rw [firstAt?, hcandidates, List.findM?, isFile_scripts]
  rfl

/-- Two spellings of one location, and a path that leads out. -/
theorem resolveJavaScript_confined_scripts : startsWith "/" "app/main.js" = false ∧
    scripts.resolveJavaScript ⟨"../util//./fmt?v=1", []⟩ "app/main.js" = .ok ["util/fmt.js"] ∧
    scripts.Lands "util/fmt.js" ∧
    scripts.resolveJavaScript ⟨"/app/../util/fmt/", []⟩ "main.js" = .ok ["util/fmt.js"] ∧
    scripts.resolveJavaScript ⟨"./../../util/fmt", []⟩ "app/main.js" = .ok [] := by
  have himporter : startsWith "/" "app/main.js" = false := by decide
  obtain ⟨hresolve, hlands, hsame⟩ :=
    resolveJavaScript_confined scripts himporter ⟨"../util//./fmt?v=1", []⟩
  have hdenoted : denoted? "../util//./fmt?v=1" "app/main.js" = some { names := ["util", "fmt"] } := by
    decide
  have hfound : scripts.resolveJavaScript ⟨"../util//./fmt?v=1", []⟩ "app/main.js" =
      .ok ["util/fmt.js"] := by
    rw [hresolve, hdenoted]
    dsimp only
    rw [if_pos rfl, firstAt?_scripts]
    rfl
  have hspelling : denoted? "/app/../util/fmt/" "main.js" = some { names := ["util", "fmt"] } := by
    decide
  refine ⟨himporter, hfound, hlands _ hfound "util/fmt.js" List.mem_cons_self,
    (hsame ⟨"/app/../util/fmt/", []⟩ "main.js" (by decide) (hspelling.trans hdenoted.symm)).trans hfound, ?_⟩
  have habove : denoted? "./../../util/fmt" "app/main.js" =
      some { up := 1, names := ["util", "fmt"] } := by decide
  rw [(resolveJavaScript_confined scripts himporter ⟨"./../../util/fmt", []⟩).1, habove]
  rfl

end Sources

end CodeReview.Dependency
