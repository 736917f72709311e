import CodeReview.Dependency.Extraction
import CodeReview.Proofs.FileSystem.Resolution
import CodeReview.Proofs.Steps

/-!
# Extractions part by part

What a file adds to an extraction does not depend on the files before it; only what becomes of that
does. `extract_eq_merge` takes an extraction apart in this way: every file is looked at on its own
(`Extraction.ofFile`), and the parts are merged from left to right.

* `Extraction.Adds`: the three things that a file may add.
* `Extraction.Simple`: no edge leads to its own file, and no two join the same ends. Merging makes
  edges simple (`simple_addEdges`).
* `Sources.Scans`: a file is read as a source of a language.
-/

namespace CodeReview.Dependency

open Text

/-! ## Edges -/

/-- The files that an edge joins. -/
def Edge.ends (edge : Edge) : String × String := (edge.source, edge.target)

theorem Edge.sameEnds_iff {edge other : Edge} : edge.sameEnds other = true ↔ edge.ends = other.ends := by
  simp [Edge.sameEnds, Edge.ends]

namespace Sources

/-- The file at a path is scanned as a source of a language, and this is its text. -/
structure Scans (sources : Sources) (path : String) (language : Language) (text : List Char) :
    Prop where
  language : Language.ofPath? path = some language
  text : ∃ bytes, sources.fs.readBytes (Path.under sources.root path) = .ok bytes ∧
    text = Utf8.unifyLineEnds (Utf8.decode bytes)

/-- The warning about a file that would be scanned if it could be read. -/
def warning? (sources : Sources) (path : String) : Option String :=
  match Language.ofPath? path, sources.fs.readBytes (Path.under sources.root path) with
  | some _, .error (.system error at_) =>
    some ("Could not read " ++ path ++ ": " ++ (Failure.system error at_).message)
  | _, _ => none

/-- What becomes of the file at a path. -/
inductive Outcome (sources : Sources) (path : String) : Prop
  | label (hlanguage : Language.ofPath? path = none)
  | null {language : Language} (hlanguage : Language.ofPath? path = some language)
    (hnull : (Path.under sources.root path).contains '\x00' = true)
  | warning {warning : String} (hwarning : sources.warning? path = some warning)
  | scan {language : Language} {text : List Char} (hscans : sources.Scans path language text)

theorem outcome (sources : Sources) (path : String) : sources.Outcome path := by
  cases hlanguage : Language.ofPath? path with
  | none => exact .label hlanguage
  | some language =>
    rcases sources.fs.readBytes_cases (Path.under sources.root path) with
      ⟨hnull, -⟩ | ⟨-, ⟨bytes, hread⟩ | ⟨error, hread⟩⟩
    · exact .null hlanguage hnull
    · exact .scan ⟨hlanguage, bytes, hread, rfl⟩
    · have hwarning : sources.warning? path = some ("Could not read " ++ path ++ ": " ++
          (Failure.system error (Path.under sources.root path)).message) := by
        unfold warning?
        rw [hlanguage, hread]
      exact .warning hwarning

end Sources

namespace Extraction

/-- No edge leads to its own file, and no two edges join the same ends. -/
def Simple (edges : List Edge) : Prop :=
  (∀ edge ∈ edges, edge.source ≠ edge.target) ∧ (edges.map Edge.ends).Nodup

section Edges

variable {known edges more : List Edge} {edge : Edge}

theorem addEdges_concat (known edges : List Edge) (edge : Edge) :
    addEdges known (edges ++ [edge]) =
      if edge.source = edge.target ∨ edge.ends ∈ (addEdges known edges).map Edge.ends then
        addEdges known edges
      else addEdges known edges ++ [edge] := by
  have hknown (edges : List Edge) : edges.any edge.sameEnds = true ↔ edge.ends ∈ edges.map Edge.ends := by
    simp only [List.any_eq_true, Edge.sameEnds_iff, List.mem_map]
    exact exists_congr fun other => and_congr_right fun _ => eq_comm
  unfold addEdges
  rw [List.foldl_append]
  simp only [List.foldl_cons, List.foldl_nil, Bool.or_eq_true, beq_iff_eq, hknown]

/-- Which ends are joined when edges have been added. -/
theorem mem_ends_addEdges {ends : String × String} :
    ends ∈ (addEdges known edges).map Edge.ends ↔
      ends ∈ known.map Edge.ends ∨ ends ∈ edges.map Edge.ends ∧ ends.1 ≠ ends.2 := by
  induction edges using List.reverseRecOn with
  | nil => simp [addEdges]
  | append_singleton edges edge ih =>
    have hlast : ends ∈ (edges ++ [edge]).map Edge.ends ↔
        ends ∈ edges.map Edge.ends ∨ ends = edge.ends := by
      simp
    rw [addEdges_concat, hlast]
    split
    · next hdropped =>
      rw [ih]
      constructor
      · rintro (hknown | ⟨hadded, hne⟩)
        · exact .inl hknown
        · exact .inr ⟨.inl hadded, hne⟩
      · rintro (hknown | ⟨hadded | rfl, hne⟩)
        · exact .inl hknown
        · exact .inr ⟨hadded, hne⟩
        · exact ih.1 (hdropped.resolve_left hne)
    · next hkept =>
      rw [List.map_append, List.mem_append, ih, or_assoc]
      refine or_congr_right ?_
      simp only [List.map_singleton, List.mem_singleton]
      constructor
      · rintro (⟨hadded, hne⟩ | rfl)
        · exact ⟨.inl hadded, hne⟩
        · exact ⟨.inr rfl, (not_or.1 hkept).1⟩
      · rintro ⟨hadded | rfl, hne⟩
        · exact .inl ⟨hadded, hne⟩
        · exact .inr rfl

theorem mem_of_mem_addEdges (h : edge ∈ addEdges known edges) : edge ∈ known ∨ edge ∈ edges := by
  induction edges using List.reverseRecOn with
  | nil => exact .inl h
  | append_singleton edges last ih =>
    rw [addEdges_concat] at h
    split at h
    · exact (ih h).imp_right (List.mem_append_left [last])
    · rcases List.mem_append.1 h with h | h
      · exact (ih h).imp_right (List.mem_append_left [last])
      · exact .inr (List.mem_append_right edges h)

/-- Adding edges keeps simple edges simple. -/
theorem simple_addEdges (h : Simple known) (edges : List Edge) : Simple (addEdges known edges) := by
  induction edges using List.reverseRecOn with
  | nil => exact h
  | append_singleton edges edge ih =>
    rw [addEdges_concat]
    split
    · exact ih
    · next hkept =>
      obtain ⟨hloop, hnew⟩ := not_or.1 hkept
      refine ⟨List.forall_mem_append.2 ⟨ih.1, by simpa using hloop⟩, ?_⟩
      rw [List.map_append, List.map_singleton]
      refine List.nodup_append.2 ⟨ih.2, by simp, fun ends hends last hlast => ?_⟩
      rintro rfl
      exact hnew (List.mem_singleton.1 hlast ▸ hends)

/-- Edges that join no known ends are added behind the known edges. -/
theorem addEdges_of_disjoint (h : ∀ edge ∈ edges, edge.ends ∉ known.map Edge.ends) :
    addEdges known edges = known ++ addEdges [] edges := by
  induction edges using List.reverseRecOn with
  | nil => exact (List.append_nil known).symm
  | append_singleton edges edge ih =>
    obtain ⟨hedges, hlast⟩ := List.forall_mem_append.1 h
    have hnew : edge.ends ∉ known.map Edge.ends := hlast edge List.mem_cons_self
    rw [addEdges_concat, addEdges_concat, ih hedges]
    simp only [List.map_append, List.mem_append, hnew, false_or]
    split
    · rfl
    · exact List.append_assoc _ _ _

/-- What has been thinned out before it is added comes to the same. -/
theorem addEdges_addEdges (known edges : List Edge) :
    addEdges known (addEdges [] edges) = addEdges known edges := by
  induction edges using List.reverseRecOn with
  | nil => rfl
  | append_singleton edges edge ih =>
    have hcond : edge.source = edge.target ∨ edge.ends ∈ (addEdges [] edges).map Edge.ends →
        edge.source = edge.target ∨ edge.ends ∈ (addEdges known edges).map Edge.ends := by
      refine Or.imp_right fun hknown => ?_
      rcases mem_ends_addEdges.1 hknown with hnil | hadded
      · exact nomatch hnil
      · exact mem_ends_addEdges.2 (.inr hadded)
    rw [addEdges_concat [] edges edge]
    split
    · next hdropped => rw [ih, addEdges_concat, if_pos (hcond hdropped)]
    · rw [addEdges_concat, addEdges_concat, ih]

end Edges

/-! ## Merging -/

/-- One extraction and what a further one adds to it. -/
def merge (result part : Extraction) : Extraction where
  edges := addEdges result.edges part.edges
  exports := part.exports.foldl (fun m (path, symbols) => m.put path symbols) result.exports
  languages := part.languages.foldl (fun m (path, label) => m.put path label) result.languages
  warnings := result.warnings ++ part.warnings
  unresolved := result.unresolved + part.unresolved

/-- What a file adds by itself. -/
def ofFile (sources : Sources) (path : String) : Except Failure Extraction := addFile sources {} path

section Cases

variable {sources : Sources} {path : String}

theorem addFile_of_label (result : Extraction) (h : Language.ofPath? (Path.normalize path) = none) :
    addFile sources result path = .ok { result with
      languages := result.languages.put (Path.normalize path) (detectLanguage (Path.normalize path)) } := by
  unfold addFile
  dsimp only
  rw [h]
  rfl

theorem addFile_of_null {language : Language} (result : Extraction)
    (hlanguage : Language.ofPath? (Path.normalize path) = some language)
    (hnull : (Path.under sources.root (Path.normalize path)).contains '\x00' = true) :
    addFile sources result path = .error .nullInPath := by
  unfold addFile
  dsimp only
  rw [hlanguage, FileSystem.readBytes, if_pos hnull]
  rfl

theorem addFile_of_warning {warning : String} (result : Extraction)
    (h : sources.warning? (Path.normalize path) = some warning) :
    addFile sources result path = .ok { result with
      languages := result.languages.put (Path.normalize path) (detectLanguage (Path.normalize path))
      warnings := result.warnings ++ [warning] } := by
  unfold Sources.warning? at h
  split at h
  · next hlanguage hread =>
    obtain rfl := Option.some.inj h
    unfold addFile
    dsimp only
    rw [hlanguage, hread]
    rfl
  · exact nomatch h

theorem addFile_of_scans {language : Language} {text : List Char} (result : Extraction)
    (h : sources.Scans (Path.normalize path) language text) :
    addFile sources result path = (do
      let (edges, missing) ←
        importEdges sources language (Path.normalize path) (language.imports text)
      let inherited := if language == .java then heritageEdges sources (Path.normalize path) text else []
      return { result with
        edges := addEdges result.edges (edges ++ inherited)
        exports := result.exports.put (Path.normalize path) (language.exports text)
        languages := result.languages.put (Path.normalize path) (detectLanguage (Path.normalize path))
        unresolved := result.unresolved + missing }) := by
  obtain ⟨hlanguage, bytes, hread, rfl⟩ := h
  unfold addFile
  dsimp only
  rw [hlanguage, hread]

theorem addFile_eq_merge (sources : Sources) (result : Extraction) (path : String) :
    addFile sources result path = result.merge <$> ofFile sources path := by
  unfold ofFile
  cases sources.outcome (Path.normalize path) with
  | label hlanguage =>
    rw [addFile_of_label result hlanguage, addFile_of_label {} hlanguage]
    change Except.ok _ = Except.ok _
    simp [merge, addEdges, Keyed.put, Keyed.alter]
  | null hlanguage hnull =>
    rw [addFile_of_null result hlanguage hnull, addFile_of_null {} hlanguage hnull]
    rfl
  | warning hwarning =>
    rw [addFile_of_warning result hwarning, addFile_of_warning {} hwarning]
    change Except.ok _ = Except.ok _
    simp [merge, addEdges, Keyed.put, Keyed.alter]
  | @scan language text hscans =>
    rw [addFile_of_scans result hscans, addFile_of_scans {} hscans]
    cases importEdges sources language (Path.normalize path) (language.imports text) with
    | error failure => rfl
    | ok found =>
      change Except.ok _ = Except.ok _
      simp [merge, addEdges_addEdges, Keyed.put, Keyed.alter]

end Cases

/-! ## What a file adds -/

/-- What the file at a path adds: its label, and with it a warning if it cannot be read, or its edges
and exports if it is scanned. -/
inductive Adds (sources : Sources) (path : String) : Extraction → Prop
  | label (hlanguage : Language.ofPath? path = none) :
    Adds sources path { languages := [(path, detectLanguage path)] }
  | warning {warning : String} (hwarning : sources.warning? path = some warning) :
    Adds sources path { languages := [(path, detectLanguage path)], warnings := [warning] }
  | scan {language : Language} {text : List Char} {edges : List Edge} {missing : Nat}
    (hscans : sources.Scans path language text)
    (himports : importEdges sources language path (language.imports text) = .ok (edges, missing)) :
    Adds sources path
      { edges := addEdges [] (edges ++
          if language == .java then heritageEdges sources path text else [])
        exports := [(path, language.exports text)]
        languages := [(path, detectLanguage path)]
        unresolved := missing }

theorem adds_of_ofFile {sources : Sources} {path : String} {part : Extraction}
    (h : ofFile sources path = .ok part) : Adds sources (Path.normalize path) part := by
  unfold ofFile at h
  cases sources.outcome (Path.normalize path) with
  | label hlanguage =>
    rw [addFile_of_label {} hlanguage] at h
    exact Except.ok.inj h ▸ .label hlanguage
  | null hlanguage hnull =>
    rw [addFile_of_null {} hlanguage hnull] at h
    exact nomatch h
  | warning hwarning =>
    rw [addFile_of_warning {} hwarning] at h
    exact Except.ok.inj h ▸ .warning hwarning
  | scan hscans =>
    rw [addFile_of_scans {} hscans] at h
    obtain ⟨⟨edges, missing⟩, himports, hpart⟩ := exists_of_bind_ok h
    dsimp only at hpart
    rw [Nat.zero_add] at hpart
    exact Except.ok.inj hpart ▸ .scan hscans himports

/-- The edges of imports come from the imports: each leads to a file that its import denotes. -/
theorem exists_of_mem_importEdges {sources : Sources} {language : Language} {path : String}
    {imports : List Import} {edges : List Edge} {missing : Nat}
    (h : importEdges sources language path imports = .ok (edges, missing)) :
    ∀ edge ∈ edges, ∃ ref ∈ imports, ∃ targets, sources.resolve language ref path = .ok targets ∧
      ∃ target ∈ targets, edge = { source := path, target } := by
  refine invariant_of_foldlM_ok (p := fun state => ∀ edge ∈ state.1, ∃ ref ∈ imports, ∃ targets,
      sources.resolve language ref path = .ok targets ∧
        ∃ target ∈ targets, edge = { source := path, target }) ?_
    (fun _ hedge => absurd hedge List.not_mem_nil) h
  rintro ref href ⟨before, count⟩ next hbefore hnext
  obtain ⟨targets, htargets, hstep⟩ := exists_of_bind_ok hnext
  split at hstep
  · obtain rfl := Except.ok.inj hstep
    exact hbefore
  · obtain rfl := Except.ok.inj hstep
    intro edge hedge
    rcases List.mem_append.1 hedge with hedge | hedge
    · exact hbefore edge hedge
    · obtain ⟨target, htarget, rfl⟩ := List.mem_map.1 hedge
      exact ⟨ref, href, targets, htargets, target, htarget, rfl⟩

theorem exists_of_mem_heritageEdges {sources : Sources} {path : String} {text : List Char} {edge : Edge}
    (h : edge ∈ heritageEdges sources path text) : ∃ heritage name target,
      (heritage, name) ∈ Java.heritage text ∧ sources.javaClass? name = some target ∧
        edge = ⟨path, target, heritageKind heritage, true⟩ := by
  obtain ⟨⟨heritage, name⟩, hname, hedge⟩ := List.mem_filterMap.1 h
  dsimp only at hedge
  split at hedge
  · next target hclass =>
    split at hedge
    · exact nomatch hedge
    · exact ⟨heritage, name, target, hname, hclass, (Option.some.inj hedge).symm⟩
  · exact nomatch hedge

end Extraction

open Extraction

/-- An extraction is merged from what the files add by themselves, in their order. -/
theorem extract_eq_merge (sources : Sources) (paths : List String) :
    extract sources paths = (·.foldl merge {}) <$> paths.mapM (ofFile sources) := by
  have hrun (result : Extraction) :
      paths.foldlM (addFile sources) result = (·.foldl merge result) <$> paths.mapM (ofFile sources) := by
    induction paths generalizing result with
    | nil => rfl
    | cons path paths ih =>
      rw [List.foldlM_cons, List.mapM_cons, addFile_eq_merge]
      cases ofFile sources path with
      | error failure => rfl
      | ok part =>
        refine (ih (result.merge part)).trans ?_
        cases paths.mapM (ofFile sources) <;> rfl
  exact hrun {}

theorem extract_eq_ok_iff_merge {sources : Sources} {paths : List String} {result : Extraction} :
    extract sources paths = .ok result ↔
      ∃ parts, paths.mapM (ofFile sources) = .ok parts ∧ parts.foldl merge {} = result := by
  rw [extract_eq_merge]
  cases paths.mapM (ofFile sources) with
  | error failure => exact ⟨nofun, fun ⟨_, h, _⟩ => nomatch h⟩
  | ok parts =>
    refine ⟨fun h => ⟨parts, rfl, Except.ok.inj h⟩, ?_⟩
    rintro ⟨-, ⟨⟩, rfl⟩
    rfl

end CodeReview.Dependency
