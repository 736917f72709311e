import CodeReview.Proofs.Dependency.Extraction
import CodeReview.Proofs.Dependency.Graph
import CodeReview.Proofs.Path.Lexical
import CodeReview.Proofs.FileSystem.Resolution
import Mathlib.Data.List.ReduceOption

/-!
# Searching for the files of imports

Each language has its own way from an import to files, but all go the same way: an import stands for a
few searches, each of them a list of candidates, and denotes the first file of every search
(`resolve_eq`).

* `searches`: the searches of an import, which are made without a look at the file system.
* `exists_of_firstFile?`: what a search finds is a candidate, simplified, at which there is a file.
* `Blocked`: a search comes to a path that is too long before it comes to a file. No other search
  fails (`succeeds_firstFile?_iff`).
-/

namespace CodeReview.Dependency

open Text FileSystem

namespace Sources

/-! ## One search -/

/-- A candidate as it is looked for. -/
def lookedUp (candidate : String) : String :=
  if candidate.isEmpty then candidate else Path.simplify candidate

theorem lookedUp_of_descends {candidate : String} (h : Path.Descends candidate) :
    lookedUp candidate = candidate := by
  unfold lookedUp
  split
  · rfl
  · exact Path.simplify_of_descends h

/-- A path that is looked for below the root is too long, or a name in it is. -/
structure TooLong (sources : Sources) (path : String) : Prop where
  inside : (path.isEmpty || path == ".." || startsWith "../" path) = false
  no_null : (Path.under sources.root path).contains '\x00' = false
  refused : sources.fs.resolve (Path.under sources.root path) = .error .nameTooLong

/-- A candidate is too long, and there is no file at those before it. -/
inductive Blocked (sources : Sources) : List String → Prop
  | here {candidate : String} {rest : List String} (h : sources.TooLong (lookedUp candidate)) :
    Blocked sources (candidate :: rest)
  | later {candidate : String} {rest : List String}
    (hmiss : sources.hasFile (lookedUp candidate) = .ok false) (h : Blocked sources rest) :
    Blocked sources (candidate :: rest)

variable {sources : Sources} {path target candidate : String} {candidates rest : List String}

theorem hasFile_eq_error_iff {failure : Failure} :
    sources.hasFile path = .error failure ↔ sources.TooLong path ∧
      failure = .system .nameTooLong (Path.under sources.root path) := by
  unfold hasFile FileSystem.isFile
  split
  · next houtside =>
    refine iff_of_false (fun h => nomatch h) fun ⟨hlong, _⟩ => ?_
    exact Bool.false_ne_true (hlong.inside.symm.trans houtside)
  · next hinside =>
    rw [probe_eq_error_iff]
    constructor
    · rintro ⟨hnull, hrefused, hfailure⟩
      exact ⟨⟨by simpa using hinside, hnull, hrefused⟩, hfailure⟩
    · rintro ⟨hlong, hfailure⟩
      exact ⟨hlong.no_null, hlong.refused, hfailure⟩

theorem firstFile?_cons (sources : Sources) (candidate : String) (rest : List String) :
    sources.firstFile? (candidate :: rest) = (do
      if ← sources.hasFile (lookedUp candidate) then return some (lookedUp candidate)
      else sources.firstFile? rest) := rfl

/-- A search ends at a candidate that leads to a regular file. -/
theorem firstFile?_of_resolve {place : Place} {bytes : List UInt8} (h : Path.Descends candidate)
    (hnull : '\x00' ∉ (Path.under sources.root candidate).toList)
    (hfound : sources.fs.resolve (Path.under sources.root candidate) = .ok (place, .file bytes)) :
    sources.firstFile? (candidate :: rest) = .ok (some candidate) := by
  have hfile : sources.hasFile candidate = .ok true := by
    rw [hasFile, Path.inside_of_descends h, if_neg Bool.false_ne_true, isFile, probe,
      String.contains_char_eq, if_neg (by simpa using hnull), hfound]
    rfl
  rw [firstFile?_cons, lookedUp_of_descends h, hfile]
  rfl

/-- What a search finds is a candidate at which there is a file. -/
theorem exists_of_firstFile? (h : sources.firstFile? candidates = .ok (some target)) :
    ∃ candidate ∈ candidates, target = lookedUp candidate ∧ sources.hasFile target = .ok true := by
  induction candidates with
  | nil => exact nomatch h
  | cons candidate rest ih =>
    rw [firstFile?_cons] at h
    obtain ⟨found, hfound, hnext⟩ := exists_of_bind_ok h
    cases found with
    | true =>
      obtain rfl := Option.some.inj (Except.ok.inj hnext)
      exact ⟨candidate, List.mem_cons_self, rfl, hfound⟩
    | false =>
      obtain ⟨other, hother, htarget⟩ := ih hnext
      exact ⟨other, List.mem_cons_of_mem candidate hother, htarget⟩

theorem firstFile?_append (sources : Sources) (candidates more : List String) :
    sources.firstFile? (candidates ++ more) = (do
      match ← sources.firstFile? candidates with
      | some target => return some target
      | none => sources.firstFile? more) := by
  induction candidates with
  | nil => rfl
  | cons candidate rest ih =>
    rw [List.cons_append, firstFile?_cons, firstFile?_cons, ih]
    rcases sources.hasFile (lookedUp candidate) with failure | found
    · rfl
    · cases found <;> rfl

theorem succeeds_firstFile?_iff : Succeeds (sources.firstFile? candidates) ↔ ¬ sources.Blocked candidates := by
  induction candidates with
  | nil => exact iff_of_true ⟨none, rfl⟩ nofun
  | cons candidate rest ih =>
    rw [firstFile?_cons]
    cases hfile : sources.hasFile (lookedUp candidate) with
    | error failure =>
      refine iff_of_false (fun ⟨_, hok⟩ => nomatch hok) (not_not_intro ?_)
      exact .here (hasFile_eq_error_iff.1 hfile).1
    | ok found =>
      have hshort : ¬ sources.TooLong (lookedUp candidate) := fun hlong =>
        nomatch hfile.symm.trans (hasFile_eq_error_iff.2 ⟨hlong, rfl⟩)
      cases found with
      | true =>
        refine iff_of_true ⟨_, rfl⟩ ?_
        rintro (hlong | ⟨hmiss, -⟩)
        · exact hshort hlong
        · exact nomatch hfile.symm.trans hmiss
      | false =>
        refine Iff.trans ih (not_congr ⟨.later hfile, ?_⟩)
        rintro (hlong | ⟨-, hrest⟩)
        · exact absurd hlong hshort
        · exact hrest

/-- A search fails because of a path that is too long. -/
theorem failsWith_firstFile? (sources : Sources) (candidates : List String) :
    FailsWith (fun failure => ∃ at_, failure = .system .nameTooLong at_)
      (sources.firstFile? candidates) := by
  induction candidates with
  | nil => exact .pure none
  | cons candidate rest ih =>
    rw [firstFile?_cons]
    refine FailsWith.bind (fun failure hfailure => ?_) fun found => ?_
    · exact ⟨_, (hasFile_eq_error_iff.1 hfailure).2⟩
    · cases found with
      | true => exact .pure _
      | false => exact ih

/-! ## The searches of an import -/

/-- A Java import stands for one search; a static one goes on with the owner of the member. -/
def javaSearches (ref : Import) : List (List String) :=
  if endsWith ".*" ref.specifier then []
  else if ref.names.contains "static" && ref.specifier.contains '.' then
    [javaCandidates ref.specifier ++ javaCandidates (onChars (Chars.beforeLast '.') ref.specifier)]
  else [javaCandidates ref.specifier]

/-- One search for a module, and one for each imported name. -/
def moduleSearches (parts : List String) (named : Bool) (names : List String) : List (List String) :=
  (if named then [pythonCandidates (join "/" parts)]
    else if parts.isEmpty then []
    else [[(parts ++ ["__init__.py"]).foldl Path.joinTo ""]]) ++
  names.map fun name => pythonCandidates (join "/" (parts ++ [name]))

/-- The searches of a Python import. -/
def pythonSearches (ref : Import) (importer : String) : List (List String) :=
  let chars := ref.specifier.toList
  let module := Chars.trimStart Path.isDot chars
  let dots := chars.length - module.length
  let names := if module.isEmpty then [] else (Chars.splitOn '.' module).map String.ofList
  if dots = 0 then moduleSearches names (!module.isEmpty) ref.names
  else
    let folders := (splitOn '/' importer).dropLast
    if folders.length < dots - 1 then []
    else
      moduleSearches (folders.take (folders.length - (dots - 1)) ++ names) (!module.isEmpty) ref.names

/-- A JavaScript import stands for one search, unless it is for a package or leads out. -/
def javascriptSearches (ref : Import) (importer : String) : List (List String) :=
  match javascriptBase? ref.specifier importer with
  | none => []
  | some base =>
    if base == ".." || startsWith "../" base then [] else [javascriptCandidates base]

/-- What is searched for an import of a file. -/
def searches (language : Language) (ref : Import) (importer : String) : List (List String) :=
  match language with
  | .java => javaSearches ref
  | .python => pythonSearches ref importer
  | .javascript => javascriptSearches ref importer

/-- What some searches find, each file once. -/
def searchAll (sources : Sources) (searches : List (List String)) : Except Failure (List String) := do
  let found ← searches.mapM sources.firstFile?
  return found.reduceOption.eraseDups

theorem searchAll_nil (sources : Sources) : sources.searchAll [] = .ok [] := rfl

theorem searchAll_singleton (sources : Sources) (candidates : List String) :
    sources.searchAll [candidates] = (do return (← sources.firstFile? candidates).toList) := by
  unfold searchAll
  rw [List.mapM_cons, List.mapM_nil]
  rcases sources.firstFile? candidates with failure | found
  · rfl
  · cases found <;> rfl

theorem resolveJava_eq (sources : Sources) (ref : Import) :
    sources.resolveJava ref = sources.searchAll (javaSearches ref) := by
  unfold resolveJava javaSearches
  dsimp only
  split
  · rfl
  split
  · rw [searchAll_singleton, firstFile?_append]
    generalize javaCandidates (onChars (Chars.beforeLast '.') ref.specifier) = more
    rcases sources.firstFile? (javaCandidates ref.specifier) with failure | found
    · rfl
    · cases found <;> rfl
  · rw [searchAll_singleton]
    rcases sources.firstFile? (javaCandidates ref.specifier) with failure | found
    · rfl
    · cases found <;> rfl

/-- Searches that are made one by one add what they find to what there is. -/
theorem foldlM_firstFile? (sources : Sources) (items : List String) (f : String → List String)
    (start : List String) :
    items.foldlM (fun targets item => do
        match ← sources.firstFile? (f item) with
        | some path => return if targets.contains path then targets else targets ++ [path]
        | none => return targets) start =
      (do return (← (items.map f).mapM sources.firstFile?).reduceOption.foldl addNew start) := by
  induction items generalizing start with
  | nil => rfl
  | cons item items ih =>
    rw [List.foldlM_cons, List.map_cons, List.mapM_cons]
    rcases sources.firstFile? (f item) with failure | found
    · rfl
    · cases found with
      | none =>
        refine (ih start).trans ?_
        rcases (items.map f).mapM sources.firstFile? with failure | found <;> rfl
      | some path =>
        refine (ih (addNew start path)).trans ?_
        rcases (items.map f).mapM sources.firstFile? with failure | found <;> rfl

theorem resolveModule_eq (sources : Sources) (parts : List String) (named : Bool)
    (names : List String) :
    sources.resolveModule parts named names =
      sources.searchAll (moduleSearches parts named names) := by
  have hnames (own : Option String) : names.foldlM (fun targets name => do
        match ← sources.firstFile? (pythonCandidates (join "/" (parts ++ [name]))) with
        | some path => return if targets.contains path then targets else targets ++ [path]
        | none => return targets) own.toList =
      (do
        let found ← (names.map fun name => pythonCandidates (join "/" (parts ++ [name]))).mapM
          sources.firstFile?
        return (own :: found).reduceOption.eraseDups) := by
    rw [foldlM_firstFile?]
    refine congrArg (_ >>= ·) (funext fun found => congrArg Except.ok ?_)
    rw [← foldl_addNew]
    cases own <;> rfl
  have hown (candidates : List String) :
      (do
        let own ← sources.firstFile? candidates
        names.foldlM (fun targets name => do
          match ← sources.firstFile? (pythonCandidates (join "/" (parts ++ [name]))) with
          | some path => return if targets.contains path then targets else targets ++ [path]
          | none => return targets) own.toList) =
      sources.searchAll ([candidates] ++
        names.map fun name => pythonCandidates (join "/" (parts ++ [name]))) := by
    simp only [hnames]
    rw [searchAll, List.singleton_append, List.mapM_cons]
    rcases sources.firstFile? candidates with failure | own
    · rfl
    · rcases (names.map fun name => pythonCandidates (join "/" (parts ++ [name]))).mapM
        sources.firstFile? with failure | found <;> rfl
  unfold resolveModule moduleSearches
  split
  · exact hown (pythonCandidates (join "/" parts))
  split
  · exact hnames none
  · exact hown [(parts ++ ["__init__.py"]).foldl Path.joinTo ""]

theorem resolvePython_eq (sources : Sources) (ref : Import) (importer : String) :
    sources.resolvePython ref importer = sources.searchAll (pythonSearches ref importer) := by
  unfold resolvePython pythonSearches
  dsimp only
  split
  · exact resolveModule_eq sources _ _ _
  split
  · exact (searchAll_nil sources).symm
  · exact resolveModule_eq sources _ _ _

theorem resolveJavaScript_eq (sources : Sources) (ref : Import) (importer : String) :
    sources.resolveJavaScript ref importer = sources.searchAll (javascriptSearches ref importer) := by
  unfold resolveJavaScript javascriptSearches
  cases javascriptBase? ref.specifier importer with
  | none => rfl
  | some base =>
    dsimp only
    split
    · rfl
    · exact (searchAll_singleton sources (javascriptCandidates base)).symm

/-- An import denotes what its searches find. -/
theorem resolve_eq (sources : Sources) (language : Language) (ref : Import) (importer : String) :
    sources.resolve language ref importer =
      sources.searchAll (searches language ref importer) := by
  cases language with
  | java => exact resolveJava_eq sources ref
  | python => exact resolvePython_eq sources ref importer
  | javascript => exact resolveJavaScript_eq sources ref importer

/-- A Python import without dots searches for a module by its whole name. -/
theorem mem_searches_of_name {module : String} (hne : module ≠ "") (hdots : '.' ∉ module.toList)
    (names : List String) (importer : String) :
    pythonCandidates module ∈ searches .python ⟨module, names⟩ importer := by
  have hmodule : Chars.trimStart Path.isDot module.toList = module.toList := by
    cases hchars : module.toList with
    | nil => rfl
    | cons c cs =>
      have hc : Path.isDot c = false := by
        refine beq_eq_false_iff_ne.2 ?_
        rintro rfl
        exact hdots (hchars ▸ List.mem_cons_self)
      exact List.dropWhile_cons_of_neg (by simp [hc])
  change _ ∈ pythonSearches _ _
  rw [pythonSearches]
  dsimp only
  rw [hmodule, if_pos (Nat.sub_self _), Chars.splitOn_of_notMem hdots, List.map_singleton,
    String.ofList_toList, if_neg (by simpa using hne), moduleSearches, if_pos (by simpa using hne), join,
    String.intercalate_singleton]
  exact List.mem_append_left _ List.mem_cons_self

variable {language : Language} {ref : Import} {importer : String} {targets : List String}

theorem succeeds_resolve_iff : Succeeds (sources.resolve language ref importer) ↔
    ∀ candidates ∈ searches language ref importer, ¬ sources.Blocked candidates := by
  rw [resolve_eq, searchAll, Succeeds.bind_pure_iff, Succeeds.mapM_iff]
  exact forall₂_congr fun candidates _ => succeeds_firstFile?_iff

theorem failsWith_resolve (sources : Sources) (language : Language) (ref : Import) (importer : String) :
    FailsWith (fun failure => ∃ at_, failure = .system .nameTooLong at_)
      (sources.resolve language ref importer) := by
  rw [resolve_eq, searchAll]
  exact (FailsWith.mapM (failsWith_firstFile? sources) _).bind fun _ => .pure _

theorem exists_of_mem_resolve (h : sources.resolve language ref importer = .ok targets)
    (htarget : target ∈ targets) : ∃ candidates ∈ searches language ref importer,
      sources.firstFile? candidates = .ok (some target) := by
  rw [resolve_eq, searchAll] at h
  obtain ⟨found, hfound, htargets⟩ := exists_of_bind_ok h
  obtain rfl := Except.ok.inj htargets
  rw [List.mem_eraseDups, List.reduceOption_mem_iff] at htarget
  exact exists_of_mem_mapM_ok hfound htarget

end Sources

/-! ## The edges of a file -/

namespace Extraction

/-- An edge that a file has: to a file that a search for one of its imports finds, or to the file of a
class that it names in a header. -/
inductive Yields (sources : Sources) (path : String) : Edge → Prop
  | imported {language : Language} {text : List Char} {ref : Import} {candidates : List String}
    {target : String} (hscans : sources.Scans path language text) (href : ref ∈ language.imports text)
    (hsearch : candidates ∈ Sources.searches language ref path)
    (hfound : sources.firstFile? candidates = .ok (some target)) :
    Yields sources path { source := path, target }
  | inherited {text : List Char} {heritage : Java.Heritage} {name target : String}
    (hscans : sources.Scans path .java text) (hname : (heritage, name) ∈ Java.heritage text)
    (hclass : sources.javaClass? name = some target) :
    Yields sources path ⟨path, target, heritageKind heritage, true⟩

variable {sources : Sources} {path : String} {part : Extraction}

theorem Adds.yields (h : Adds sources path part) : ∀ edge ∈ part.edges, Yields sources path edge := by
  cases h with
  | label => exact nofun
  | warning => exact nofun
  | scan hscans himports =>
    intro edge hedge
    rcases List.mem_append.1 ((mem_of_mem_addEdges hedge).resolve_left List.not_mem_nil) with
      himported | hinherited
    · obtain ⟨ref, href, targets, htargets, target, htarget, rfl⟩ :=
        exists_of_mem_importEdges himports edge himported
      obtain ⟨candidates, hsearch, hfound⟩ := Sources.exists_of_mem_resolve htargets htarget
      exact .imported hscans href hsearch hfound
    · split at hinherited
      · next hjava =>
        obtain rfl := beq_iff_eq.1 hjava
        obtain ⟨heritage, name, target, hname, hclass, rfl⟩ :=
          exists_of_mem_heritageEdges hinherited
        exact .inherited hscans hname hclass
      · exact nomatch hinherited

theorem mem_edges_foldl_merge {parts : List Extraction} {edge : Edge}
    (h : edge ∈ (parts.foldl merge {}).edges) : ∃ part ∈ parts, edge ∈ part.edges := by
  induction parts using List.reverseRecOn with
  | nil => exact nomatch h
  | append_singleton parts part ih =>
    rw [List.foldl_append] at h
    rcases mem_of_mem_addEdges h with h | h
    · obtain ⟨other, hother, hedge⟩ := ih h
      exact ⟨other, List.mem_append_left [part] hother, hedge⟩
    · exact ⟨part, List.mem_append_right parts List.mem_cons_self, h⟩

/-- Every edge of an extraction is an edge of one of the files. -/
theorem yields_of_extract {paths : List String} {result : Extraction}
    (h : extract sources paths = .ok result) : ∀ edge ∈ result.edges,
      ∃ path ∈ paths, Yields sources (Path.normalize path) edge := by
  obtain ⟨parts, hparts, rfl⟩ := extract_eq_ok_iff_merge.1 h
  intro edge hedge
  obtain ⟨part, hpart, hedge⟩ := mem_edges_foldl_merge hedge
  obtain ⟨path, hpath, hfile⟩ := exists_of_mem_mapM_ok hparts hpart
  exact ⟨path, hpath, (adds_of_ofFile hfile).yields edge hedge⟩

end Extraction

end CodeReview.Dependency
