import CodeReview.Proofs.Dependency.Search
import Mathlib.Algebra.BigOperators.Group.List.Basic
import Mathlib.Algebra.GroupWithZero.Nat
import Mathlib.Data.List.Perm.Basic

/-!
# Extraction is local to each file

The files of an extraction share the list of edges that are known and the index of classes. Neither
carries anything from one file to another, if the files have different keys.

* `extract_local`: the extraction of two lists of files is that of the one and that of the other, and
  another order of the files only brings the result into another order.
* `Extraction.Alone`: what a file adds stays under its own key. Parts under different keys are merged by
  writing one behind the other (`foldl_merge`).
-/

namespace CodeReview.Dependency

namespace Extraction

/-- Extractions one behind the other. -/
def concat (parts : List Extraction) : Extraction where
  edges := parts.flatMap (·.edges)
  exports := parts.flatMap (·.exports)
  languages := parts.flatMap (·.languages)
  warnings := parts.flatMap (·.warnings)
  unresolved := (parts.map (·.unresolved)).sum

/-- The same in another order. -/
structure Reorders (result other : Extraction) : Prop where
  edges : result.edges.Perm other.edges
  exports : result.exports.Perm other.exports
  languages : result.languages.Perm other.languages
  warnings : result.warnings.Perm other.warnings
  unresolved : result.unresolved = other.unresolved

/-- All of the extraction is about the file of one key. -/
structure Alone (key : String) (part : Extraction) : Prop where
  edges : addEdges [] part.edges = part.edges
  source : ∀ edge ∈ part.edges, edge.source = key
  exports : part.exports.keys.Sublist [key]
  languages : part.languages.keys = [key]

theorem source_of_mem_importEdges {sources : Sources} {language : Language} {path : String}
    {imports : List Import} {edges : List Edge} {missing : Nat}
    (h : importEdges sources language path imports = .ok (edges, missing)) :
    ∀ edge ∈ edges, edge.source = path := by
  intro edge hedge
  obtain ⟨-, -, -, -, -, -, rfl⟩ := exists_of_mem_importEdges h edge hedge
  rfl

theorem Adds.alone {sources : Sources} {key : String} {part : Extraction}
    (h : Adds sources key part) : Alone key part := by
  cases h with
  | label => exact ⟨rfl, nofun, List.nil_sublist _, rfl⟩
  | warning => exact ⟨rfl, nofun, List.nil_sublist _, rfl⟩
  | scan hscans himports =>
    refine ⟨addEdges_addEdges [] _, fun edge hedge => ?_, List.Sublist.refl _, rfl⟩
    rcases List.mem_append.1 ((mem_of_mem_addEdges hedge).resolve_left List.not_mem_nil) with
      hedge | hedge
    · exact source_of_mem_importEdges himports edge hedge
    · split at hedge
      · obtain ⟨-, -, -, -, -, rfl⟩ := exists_of_mem_heritageEdges hedge
        rfl
      · exact nomatch hedge

section Merging

variable {keys : List String} {parts : List Extraction}

theorem concat_append (parts more : List Extraction) :
    concat (parts ++ more) = { edges := (concat parts).edges ++ (concat more).edges
                               exports := (concat parts).exports ++ (concat more).exports
                               languages := (concat parts).languages ++ (concat more).languages
                               warnings := (concat parts).warnings ++ (concat more).warnings
                               unresolved := (concat parts).unresolved + (concat more).unresolved } := by
  simp [concat]

theorem keys_flatMap {α : Type} (f : Extraction → Keyed α) (parts : List Extraction) :
    Keyed.keys (parts.flatMap f) = parts.flatMap fun part => (f part).keys := by
  simp [Keyed.keys, List.map_flatMap]

theorem languages_concat (h : List.Forall₂ Alone keys parts) : (concat parts).languages.keys = keys := by
  rw [concat, keys_flatMap]
  induction h with
  | nil => rfl
  | cons halone _ ih => rw [List.flatMap_cons, halone.languages, ih]; rfl

theorem exports_concat (h : List.Forall₂ Alone keys parts) :
    (concat parts).exports.keys.Sublist keys := by
  rw [concat, keys_flatMap]
  induction h with
  | nil => exact List.nil_sublist []
  | cons halone _ ih => rw [List.flatMap_cons]; exact halone.exports.append ih

theorem source_concat (h : List.Forall₂ Alone keys parts) :
    ∀ edge ∈ (concat parts).edges, edge.source ∈ keys := by
  induction h with
  | nil => exact fun _ hedge => nomatch hedge
  | @cons key part keys parts halone _ ih =>
    intro edge hedge
    rw [concat, List.flatMap_cons] at hedge
    rcases List.mem_append.1 hedge with hedge | hedge
    · exact halone.source edge hedge ▸ List.mem_cons_self
    · exact List.mem_cons_of_mem key (ih edge hedge)

/-- A part under a new key comes behind the others. -/
theorem merge_concat {key : String} {part : Extraction} (h : List.Forall₂ Alone keys parts)
    (halone : Alone key part) (hkeys : (keys ++ [key]).Nodup) :
    (concat parts).merge part = concat (parts ++ [part]) := by
  have hnew : key ∉ keys := fun hmem =>
    (List.nodup_append.1 hkeys).2.2 key hmem key List.mem_cons_self rfl
  have hedges : addEdges (concat parts).edges part.edges = (concat parts).edges ++ part.edges := by
    rw [addEdges_of_disjoint, halone.edges]
    intro edge hedge hends
    obtain ⟨known, hknown, hsame⟩ := List.mem_map.1 hends
    have hsource : known.source = edge.source := congrArg Prod.fst hsame
    exact hnew (halone.source edge hedge ▸ hsource ▸ source_concat h known hknown)
  have hexports : ((concat parts).exports.keys ++ part.exports.keys).Nodup :=
    hkeys.sublist ((exports_concat h).append halone.exports)
  have hlanguages : ((concat parts).languages.keys ++ part.languages.keys).Nodup := by
    rwa [languages_concat h, halone.languages]
  rw [concat_append, merge, hedges, Keyed.foldl_put_of_nodup hexports,
    Keyed.foldl_put_of_nodup hlanguages]
  simp [concat]

/-- Parts under different keys are merged by writing one behind the other. -/
theorem foldl_merge (hkeys : keys.Nodup) (h : List.Forall₂ Alone keys parts) :
    parts.foldl merge {} = concat parts := by
  have hrun {before : List String} {front : List Extraction} (hfront : List.Forall₂ Alone before front)
      (hall : (before ++ keys).Nodup) : parts.foldl merge (concat front) = concat (front ++ parts) := by
    induction h generalizing before front with
    | nil => rw [List.append_nil]; rfl
    | @cons key part keys parts halone _ ih =>
      have hnext : List.Forall₂ Alone (before ++ [key]) (front ++ [part]) :=
        List.rel_append hfront (.cons halone .nil)
      rw [List.append_cons] at hall ⊢
      rw [List.foldl_cons, merge_concat hfront halone (hall.sublist (List.sublist_append_left _ _))]
      exact ih (List.nodup_append.1 hall).2.1 hnext hall
  exact hrun .nil hkeys

end Merging

end Extraction

open Text FileSystem Extraction

/-- Of files under different keys, an extraction is what each of them adds, one behind the other. -/
theorem extract_eq_ok_iff {sources : Sources} {paths : List String} {result : Extraction}
    (hkeys : (paths.map Path.normalize).Nodup) :
    extract sources paths = .ok result ↔ ∃ parts,
      List.Forall₂ (fun path part => ofFile sources path = .ok part) paths parts ∧
        result = concat parts := by
  have hmerge {parts : List Extraction}
      (h : List.Forall₂ (fun path part => ofFile sources path = .ok part) paths parts) :
      parts.foldl merge {} = concat parts := by
    refine foldl_merge hkeys (List.forall₂_map_left_iff.2 (h.imp fun path part hpart => ?_))
    exact (adds_of_ofFile hpart).alone
  rw [extract_eq_ok_iff_merge]
  simp only [mapM_eq_ok_iff]
  refine exists_congr fun parts => and_congr_right fun hall => ?_
  rw [hmerge hall, eq_comm]

theorem extract_single {sources : Sources} {path : String} {part : Extraction}
    (h : ofFile sources path = .ok part) : extract sources [path] = .ok (concat [part]) := by
  have hkeys : ([path].map Path.normalize).Nodup := List.nodup_singleton _
  exact (extract_eq_ok_iff hkeys).2 ⟨[part], .cons h .nil, rfl⟩

theorem simple_of_extract {sources : Sources} {paths : List String} {result : Extraction}
    (h : extract sources paths = .ok result) : Simple result.edges := by
  have hmerged (parts : List Extraction) : Simple (parts.foldl merge {}).edges := by
    induction parts using List.reverseRecOn with
    | nil => exact ⟨nofun, List.nodup_nil⟩
    | append_singleton parts part ih =>
      rw [List.foldl_append]
      exact simple_addEdges ih part.edges
  obtain ⟨parts, -, rfl⟩ := extract_eq_ok_iff_merge.1 h
  exact hmerged parts

theorem reorders_concat {parts more : List Extraction} (h : parts.Perm more) :
    (concat parts).Reorders (concat more) where
  edges := h.flatMap_right _
  exports := h.flatMap_right _
  languages := h.flatMap_right _
  warnings := h.flatMap_right _
  unresolved := (h.map _).sum_eq

/-- If no two files have the same key, the extraction of two lists of files is that of the first and
behind it that of the second, and no other order of the files gives anything else but an order. In no
extraction is there an edge from a file to itself or a second edge between the same two files. -/
theorem extract_local {sources : Sources} {xs ys : List String} {first second : Extraction}
    (hkeys : ((xs ++ ys).map Path.normalize).Nodup) (hfirst : extract sources xs = .ok first)
    (hsecond : extract sources ys = .ok second) : ∃ both, extract sources (xs ++ ys) = .ok both ∧
      both = { edges := first.edges ++ second.edges
               exports := first.exports ++ second.exports
               languages := first.languages ++ second.languages
               warnings := first.warnings ++ second.warnings
               unresolved := first.unresolved + second.unresolved } ∧
      both.languages.keys = (xs ++ ys).map Path.normalize ∧
      both.exports.keys.Sublist both.languages.keys ∧
      (∀ zs, zs.Perm (xs ++ ys) →
        ∃ other, extract sources zs = .ok other ∧ other.Reorders both) ∧
      ∀ paths result, extract sources paths = .ok result →
        (∀ edge ∈ result.edges, edge.source ≠ edge.target) ∧
          (result.edges.map fun edge => (edge.source, edge.target)).Nodup := by
  obtain ⟨hxs, hys, -⟩ := List.nodup_append.1 (List.map_append ▸ hkeys)
  obtain ⟨front, hfront, rfl⟩ := (extract_eq_ok_iff hxs).1 hfirst
  obtain ⟨behind, hbehind, rfl⟩ := (extract_eq_ok_iff hys).1 hsecond
  have hall := List.rel_append hfront hbehind
  have halone : List.Forall₂ Alone ((xs ++ ys).map Path.normalize) (front ++ behind) :=
    List.forall₂_map_left_iff.2 (hall.imp fun path part hpart => (adds_of_ofFile hpart).alone)
  refine ⟨concat (front ++ behind), (extract_eq_ok_iff hkeys).2 ⟨_, hall, rfl⟩,
    concat_append front behind, languages_concat halone, ?_, fun zs hzs => ?_,
    fun paths result => simple_of_extract⟩
  · rw [languages_concat halone]
    exact exports_concat halone
  · obtain ⟨parts, hparts, hperm⟩ := List.perm_comp_forall₂ hzs hall
    have hother := (extract_eq_ok_iff ((hzs.map _).nodup_iff.2 hkeys)).2 ⟨parts, hparts, rfl⟩
    exact ⟨_, hother, reorders_concat hperm⟩

/-! ## Two files that import each other -/

/-- A repository of two files that import each other. -/
def pair : Sources where
  fs := { entries := [(["repo"], .folder), (["repo", "a.py"], .file (Utf8.encode "import b".toList)),
    (["repo", "b.py"], .file (Utf8.encode "import a".toList))] }
  root := "/repo"

/-- The files of `pair`: the key, the module that it imports, and the key of that. -/
def pairFiles : List (String × String × String) := [("a.py", "b", "b.py"), ("b.py", "a", "a.py")]

section Pair

variable {key module target : String}

theorem resolve_pair (h : (key, module, target) ∈ pairFiles) :
    pair.fs.resolve (Path.under pair.root key) =
      .ok (["repo", key], .file (Utf8.encode ("import " ++ module).toList)) := by
  have hall : ∀ known ∈ pairFiles, Path.under pair.root known.1 = "/repo/" ++ known.1 ∧
      (("/repo/" ++ known.1).isEmpty = false ∧ ("/repo/" ++ known.1).utf8ByteSize < pathLimit) ∧
      pair.fs.resolveWithin 4 linkLimit
        (if startsWith "/" ("/repo/" ++ known.1) then [] else pair.fs.workingFolder)
        (components ("/repo/" ++ known.1)) =
          some (.ok (["repo", known.1], .file (Utf8.encode ("import " ++ known.2.1).toList))) := by
    decide
  obtain ⟨hunder, hsize, hfound⟩ := hall _ h
  rw [hunder]
  exact resolve_of_within 4 hsize hfound

theorem no_null_pair (h : (key, module, target) ∈ pairFiles) :
    ¬ (Path.under pair.root key).contains '\x00' = true := by
  have hall : ∀ known ∈ pairFiles, '\x00' ∉ (Path.under pair.root known.1).toList := by decide
  rw [String.contains_char_eq, decide_eq_true_iff]
  exact hall (key, module, target) h

theorem scans_pair (h : (key, module, target) ∈ pairFiles) :
    pair.Scans (Path.normalize key) .python ("import " ++ module).toList := by
  have hall : ∀ known ∈ pairFiles, Path.normalize known.1 = known.1 ∧
      Language.ofPath? known.1 = some .python ∧ ("import " ++ known.2.1).toList =
        Utf8.unifyLineEnds (Utf8.decode (Utf8.encode ("import " ++ known.2.1).toList)) := by
    decide +kernel
  obtain ⟨hkey, hlanguage, htext⟩ := hall _ h
  rw [hkey]
  refine ⟨hlanguage, Utf8.encode ("import " ++ module).toList, ?_, htext⟩
  rw [readBytes, if_neg (no_null_pair h), resolve_pair h]

theorem resolve_import_pair (h : (key, module, target) ∈ pairFiles) :
    pair.resolve .python ⟨module, []⟩ key = .ok [target] := by
  have hall : ∀ known ∈ pairFiles, known.2.2 ∈ pairFiles.map (·.1) ∧
      Sources.searches .python ⟨known.2.1, []⟩ known.1 =
        [[known.2.2, known.2.1 ++ "/__init__.py"]] ∧ Sources.lookedUp known.2.2 = known.2.2 ∧
      (known.2.2.isEmpty || known.2.2 == ".." || startsWith "../" known.2.2) = false := by
    decide
  obtain ⟨htarget, hsearches, hlooked, hinside⟩ := hall _ h
  obtain ⟨⟨other, after⟩, hnext, hother⟩ := List.mem_map.1 htarget
  obtain rfl : target = other := hother.symm
  have hfile : pair.hasFile target = .ok true := by
    rw [Sources.hasFile, hinside, FileSystem.isFile, FileSystem.probe, if_neg (no_null_pair hnext),
      resolve_pair hnext]
    rfl
  rw [Sources.resolve_eq, hsearches, Sources.searchAll_singleton, Sources.firstFile?_cons, hlooked,
    hfile]
  rfl

/-- What each file adds. -/
theorem ofFile_pair (h : (key, module, target) ∈ pairFiles) : ofFile pair key =
    .ok { edges := [{ source := key, target }], exports := [(key, [])],
          languages := [(key, some "python")] } := by
  have hall : ∀ known ∈ pairFiles, Path.normalize known.1 = known.1 ∧ known.1 ≠ known.2.2 ∧
      Language.python.imports ("import " ++ known.2.1).toList = [⟨known.2.1, []⟩] ∧
      Language.python.exports ("import " ++ known.2.1).toList = [] ∧
      detectLanguage known.1 = some "python" := by
    decide +kernel
  obtain ⟨hkey, hne, himports, hexports, hlabel⟩ := hall _ h
  have hedges : importEdges pair .python key [⟨module, []⟩] =
      .ok ([{ source := key, target }], 0) := by
    rw [importEdges, List.foldlM_cons, resolve_import_pair h]
    rfl
  rw [ofFile, addFile_of_scans {} (scans_pair h), hkey, himports, hedges, hexports, hlabel]
  change Except.ok _ = Except.ok _
  simpa [addEdges, Keyed.put, Keyed.alter] using hne

end Pair

theorem extract_local_pair : ∃ first second both, extract pair ["a.py"] = .ok first ∧
    extract pair ["b.py"] = .ok second ∧ extract pair ["a.py", "b.py"] = .ok both ∧
      both.edges = first.edges ++ second.edges ∧
      both.edges = [{ source := "a.py", target := "b.py" }, { source := "b.py", target := "a.py" }] ∧
      ∃ other, extract pair ["b.py", "a.py"] = .ok other ∧ other.Reorders both := by
  have hfirst := extract_single (@ofFile_pair "a.py" "b" "b.py" (by decide))
  have hsecond := extract_single (@ofFile_pair "b.py" "a" "a.py" (by decide))
  obtain ⟨both, hboth, rfl, -, -, horder, -⟩ := extract_local (by decide) hfirst hsecond
  exact ⟨_, _, _, hfirst, hsecond, hboth, rfl, rfl, horder _ (List.Perm.swap "a.py" "b.py" [])⟩

end CodeReview.Dependency
