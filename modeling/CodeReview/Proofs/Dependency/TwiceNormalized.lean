import CodeReview.Proofs.Dependency.Answers
import CodeReview.Proofs.Path.Spellings

/-!
# Keys that are normalized twice

The context of a file is asked for by the key of the file, and a graph takes the keys of the keys that an
extraction has. Both come to the same as taking a key once exactly for the paths that settle, that is, for
the spellings of keys (`settles_iff_agrees`).
-/

namespace CodeReview

namespace Keyed

variable {α : Type}

/-- Pairs that are put together keep the order of their keys. -/
theorem keys_ofPairs_sublist (pairs : List (String × α)) :
    (ofPairs pairs).keys.Sublist (pairs.map (·.1)) := by
  induction pairs using List.reverseRecOn with
  | nil => exact .slnil
  | append_singleton pairs last ih =>
    rw [ofPairs, List.foldl_append, List.map_append]
    change (put (ofPairs pairs) last.1 last.2).keys.Sublist _
    rw [keys_put]
    split
    · exact ih.trans (List.sublist_append_left _ _)
    · exact ih.append (.refl _)

/-- Changing the keys changes a map unless each key stays what it is. -/
theorem ofPairs_map_eq_self_iff {m : Keyed α} (hnodup : m.keys.Nodup) (f : String → String) :
    ofPairs (m.map fun (k, a) => (f k, a)) = m ↔ ∀ k ∈ m.keys, f k = k := by
  have hkeys : (m.map fun (k, a) => (f k, a)).map (·.1) = m.keys.map f := by
    rw [keys, List.map_map, List.map_map]
    rfl
  constructor
  · intro h
    have hsub := keys_ofPairs_sublist (m.map fun (k, a) => (f k, a))
    rw [h, hkeys] at hsub
    have hsame : m.keys.map f = m.keys := (hsub.eq_of_length_le (List.length_map f).le).symm
    exact List.map_inj_left.1 (hsame.trans (List.map_id m.keys).symm)
  · intro h
    have hsame : (m.map fun (k, a) => (f k, a)) = m := by
      refine (List.map_congr_left fun entry hentry => ?_).trans (List.map_id m)
      exact Prod.ext (h entry.1 (List.mem_map_of_mem hentry)) rfl
    rw [hsame, ofPairs_of_nodup hnodup]

end Keyed

open CodeReview.Path (Settles IsKey Spells)

namespace Dependency

/-! ## Questions -/

/-- The context of a file says what the graph says of the file when it is asked one thing after the
other. -/
structure Graph.Agrees (graph : Graph) (path : String) : Prop where
  taking : (graph.fileContext path).taking = graph.taking path
  dependents : (graph.fileContext path).dependents = graph.dependents path
  calling : (graph.fileContext path).calling = graph.calling path
  language : (graph.fileContext path).language = graph.language path

theorem Graph.agrees_of_settles {path : String} (h : Settles path) (graph : Graph) : graph.Agrees path := by
  refine ⟨?_, ?_, ?_, ?_⟩
  · change graph.taking (Path.normalize path) = _
    rw [taking, taking, h]
  · change graph.dependents (Path.normalize path) = _
    rw [dependents, dependents, h]
  · change graph.calling (Path.normalize path) = _
    rw [calling, calling, h]
  · change graph.language (Path.normalize path) = _
    rw [language, language, h]

/-- A graph with an edge from the file tells the key from the key of the key. -/
theorem Graph.settles_of_agrees {path : String} (h : ∀ graph : Graph, graph.Agrees path) : Settles path := by
  have hasked (graph : Graph) : graph.taking (Path.normalize path) = graph.taking path := (h graph).taking
  have hreflects := reflects_ofEdges [{ source := path, target := path }] [] []
  have htaking := hasked (ofEdges [{ source := path, target := path }] [] [])
  rw [hreflects.taking, hreflects.taking] at htaking
  by_contra hne
  have hnone : targetsFrom [{ source := path, target := path }] (Path.normalize path) = [] := by
    simpa [targetsFrom, valuesOf, forward] using Ne.symm hne
  have hone : targetsFrom [{ source := path, target := path }] path = [Path.normalize path] := by
    simp [targetsFrom, valuesOf, forward]
  rw [hnone, hone] at htaking
  exact absurd htaking (by simp [List.eraseDups_cons])

/-! ## Extractions -/

/-- The graph of an extraction has the keys that the extraction has. -/
structure Extraction.KeepsKeys (extraction : Extraction) : Prop where
  source : ∀ edge ∈ extraction.edges, Path.normalize edge.source = edge.source
  exports : (Graph.ofExtraction extraction).exported = extraction.exports
  languages : (Graph.ofExtraction extraction).languages = extraction.languages

/-- Every listed file has its key among the labels. -/
theorem Extraction.mem_keys_languages {sources : Sources} {paths : List String} {extraction : Extraction}
    (h : extract sources paths = .ok extraction) {path : String} (hpath : path ∈ paths) :
    Path.normalize path ∈ extraction.languages.keys := by
  obtain ⟨part, hpart, hholds⟩ := (holds_of_extract h (Path.normalize path)).2 path hpath rfl
  have hlabel : part.languages.get? (Path.normalize path) = some (detectLanguage (Path.normalize path)) := by
    cases adds_of_ofFile hpart <;> exact Keyed.get?_cons .. ▸ if_pos rfl
  exact Keyed.mem_keys_of_get? (hholds.languages.trans hlabel)

theorem Extraction.keepsKeys_iff {sources : Sources} {paths : List String} {extraction : Extraction}
    (h : extract sources paths = .ok extraction) :
    extraction.KeepsKeys ↔ ∀ path ∈ paths, Settles path := by
  have hwithin := within_of_extract h
  constructor
  · intro hkeeps path hpath
    have hkeys := (Keyed.ofPairs_map_eq_self_iff hwithin.nodup.2 Path.normalize).1 hkeeps.languages
    exact hkeys _ (mem_keys_languages h hpath)
  · intro hpaths
    have hkeys : ∀ key ∈ paths.map Path.normalize, Path.normalize key = key := by
      intro key hkey
      obtain ⟨path, hpath, rfl⟩ := List.mem_map.1 hkey
      exact hpaths path hpath
    refine ⟨fun edge hedge => hkeys _ (hwithin.source edge hedge), ?_, ?_⟩
    · exact (Keyed.ofPairs_map_eq_self_iff hwithin.nodup.1 Path.normalize).2
        fun key hkey => hkeys key (hwithin.exports hkey)
    · exact (Keyed.ofPairs_map_eq_self_iff hwithin.nodup.2 Path.normalize).2
        fun key hkey => hkeys key (hwithin.languages hkey)

/-! ## The two together -/

/-- The paths whose key stays what it is are the spellings of the texts that have the form of a key. They
are those of which the context of a file says what the graph says, and an extraction hands its keys on to
the graph as they are exactly if it was made from such paths. -/
theorem settles_iff_agrees (path : String) (sources : Sources) (paths : List String) :
    (Path.normalize path = path ↔ IsKey path.toList) ∧
      (∀ key, IsKey key → (Path.normalize path = String.ofList key ↔ Spells key path.toList)) ∧
      (Settles path ↔ ∃ key, IsKey key ∧ Spells key path.toList) ∧
      (Settles path ↔ ∀ graph : Graph, graph.Agrees path) ∧
      ∀ extraction, extract sources paths = .ok extraction →
        (extraction.KeepsKeys ↔ ∀ listed ∈ paths, Settles listed) := by
  refine ⟨?_, fun key hkey => Path.normalize_eq_iff hkey, Path.settles_iff,
    ⟨Graph.agrees_of_settles, Graph.settles_of_agrees⟩, fun extraction h => Extraction.keepsKeys_iff h⟩
  rw [← Path.normalizeChars_eq_self_iff, ← String.ofList_inj, String.ofList_toList]
  rfl

/-- What is listed with slashes for backslashes, and with white space around it, keeps its key. -/
theorem settles_iff_agrees_note : ∃ extraction,
    extract { fs := {}, root := "/repo" } [" .\\notes\\a b.txt"] = .ok extraction ∧
      extraction.KeepsKeys := by
  have hfile := @Extraction.addFile_of_label { fs := {}, root := "/repo" } " .\\notes\\a b.txt" {}
    (by decide)
  have hextract := (bind_pure (Extraction.addFile { fs := {}, root := "/repo" } {} " .\\notes\\a b.txt")).trans hfile
  refine ⟨_, hextract, ?_⟩
  obtain ⟨-, -, -, -, hkeeps⟩ :=
    settles_iff_agrees " .\\notes\\a b.txt" { fs := {}, root := "/repo" } [" .\\notes\\a b.txt"]
  exact (hkeeps _ hextract).2 (by decide)

/-- A `./` behind a slash makes three different things of a path, its key and the key of that. The context
of the file does not tell what the file takes. -/
theorem not_settles_here_behind_slash :
    Path.normalize "/./a" = "./a" ∧ Path.normalize "./a" = "a" ∧
      (Graph.ofEdges [{ source := "/./a", target := "b" }] [] []).taking "/./a" = ["b"] ∧
      ((Graph.ofEdges [{ source := "/./a", target := "b" }] [] []).fileContext "/./a").taking = [] ∧
      ¬ ∀ path, Path.normalize (Path.normalize path) = Path.normalize path := by
  refine ⟨by decide, by decide, by decide, by decide, fun h => ?_⟩
  exact absurd (h "/./a") (by decide)

end Dependency

end CodeReview
