import CodeReview.Proofs.Dependency.Graph
import CodeReview.Proofs.Dependency.Locality

/-!
# What the graph answers about a file

An extraction holds under the key of each file what that file adds (`Extraction.holds_of_extract`), also
if several files have the same key. A graph takes the keys of keys, so it answers about a file from what
that file adds if no other file is drawn into its place (`Graph.answers_of_extract`).
-/

namespace CodeReview

namespace Keyed

variable {α : Type}

theorem nodup_keys_foldl_put {m : Keyed α} (h : m.keys.Nodup) (pairs : List (String × α)) :
    (pairs.foldl (fun m (k, a) => m.put k a) m).keys.Nodup := by
  induction pairs generalizing m with
  | nil => exact h
  | cons pair pairs ih => exact ih (nodup_keys_alter h pair.1 fun _ => pair.2)

/-- Pairs of one key change what stands under that key, if there are any. -/
theorem get?_foldl_put_of_keys {pairs : Keyed α} {key : String} (h : pairs.keys.Sublist [key])
    (m : Keyed α) (other : String) :
    (pairs.foldl (fun m (k, a) => m.put k a) m).get? other =
      if other = key then (pairs.get? key).or (m.get? key) else m.get? other := by
  match pairs, h with
  | [], _ => split <;> simp_all [get?]
  | [(k, a)], h =>
    obtain rfl : k = key := List.mem_singleton.1 (h.subset List.mem_cons_self)
    change (m.put k a).get? other = _
    rw [get?_put, get?_cons, if_pos rfl]
    rfl
  | _ :: _ :: _, h => exact absurd h.length_le (by simp [keys])

/-- Values under the keys of keys: under a key of its own stands what stood there before, if no other key
has it for its key. -/
theorem get?_ofPairs_normalize {m : Keyed α} (hnodup : m.keys.Nodup) {path : String}
    (hpath : Path.normalize path = path) (hown : ∀ k ∈ m.keys, Path.normalize k = path → k = path) :
    (ofPairs (m.map fun (k, a) => (Path.normalize k, a))).get? path = m.get? path := by
  induction m using List.reverseRecOn with
  | nil => rfl
  | append_singleton m pair ih =>
    obtain ⟨k, a⟩ := pair
    have hkeys : keys (m ++ [(k, a)]) = keys m ++ [k] := by simp [keys]
    rw [hkeys] at hnodup hown
    obtain ⟨hm, hk⟩ := List.forall_mem_append.1 hown
    have hnew : k ∉ keys m := fun hmem =>
      (List.nodup_append.1 hnodup).2.2 k hmem k List.mem_cons_self rfl
    have hput : ofPairs ((m ++ [(k, a)]).map fun (k, a) => (Path.normalize k, a)) =
        (ofPairs (m.map fun (k, a) => (Path.normalize k, a))).put (Path.normalize k) a := by
      rw [List.map_append, ofPairs, List.foldl_append]
      rfl
    have hlast : get? (m ++ [(k, a)]) path = (get? m path).or (if path = k then some a else none) := by
      rw [get?, List.lookup_append, ← get?, ← get?, get?_cons]
      rfl
    rw [hput, get?_put, hlast]
    by_cases hkey : path = Path.normalize k
    · obtain rfl : k = path := hk k List.mem_cons_self hkey.symm
      rw [if_pos hkey, if_pos rfl, get?_of_notMem hnew, Option.none_or]
    · have hne : path ≠ k := by
        rintro rfl
        exact hkey hpath.symm
      rw [if_neg hkey, if_neg hne, Option.or_none, ih (List.nodup_append.1 hnodup).1 hm]

end Keyed

namespace Dependency

namespace Extraction

/-! ## Extractions key by key -/

/-- The edges of a file in an extraction. -/
def edgesOf (key : String) (edges : List Edge) : List Edge := edges.filter (·.source = key)

/-- Under a key an extraction has just what a part has there. -/
structure Holds (key : String) (part result : Extraction) : Prop where
  edges : edgesOf key result.edges = part.edges
  exports : result.exports.get? key = part.exports.get? key
  languages : result.languages.get? key = part.languages.get? key

/-- An extraction is about files of these keys, and of each it has one entry at most. -/
structure Within (keys : List String) (result : Extraction) : Prop where
  source : ∀ edge ∈ result.edges, edge.source ∈ keys
  exports : result.exports.keys ⊆ keys
  languages : result.languages.keys ⊆ keys
  nodup : result.exports.keys.Nodup ∧ result.languages.keys.Nodup

section Merging

variable {key other : String} {keys : List String} {part result : Extraction}

/-- Whether an edge is dropped is decided among the edges of its own file. -/
theorem edgesOf_addEdges (key : String) (known edges : List Edge) :
    edgesOf key (addEdges known edges) = addEdges (edgesOf key known) (edgesOf key edges) := by
  induction edges using List.reverseRecOn with
  | nil => rfl
  | append_singleton edges edge ih =>
    have hlast : edgesOf key (edges ++ [edge]) =
        edgesOf key edges ++ if edge.source = key then [edge] else [] := by
      rw [edgesOf, List.filter_append, List.filter_singleton, ← edgesOf]
      simp
    rw [addEdges_concat, hlast]
    by_cases hsource : edge.source = key
    · have hends : edge.ends ∈ (addEdges known edges).map Edge.ends ↔
          edge.ends ∈ (edgesOf key (addEdges known edges)).map Edge.ends := by
        simp only [List.mem_map, edgesOf, List.mem_filter, decide_eq_true_eq]
        refine exists_congr fun found => ⟨fun ⟨hmem, hsame⟩ => ⟨⟨hmem, ?_⟩, hsame⟩,
          fun ⟨⟨hmem, _⟩, hsame⟩ => ⟨hmem, hsame⟩⟩
        exact (congrArg Prod.fst hsame).trans hsource
      rw [if_pos hsource, addEdges_concat, ← ih]
      by_cases hdropped : edge.source = edge.target ∨
          edge.ends ∈ (addEdges known edges).map Edge.ends
      · rw [if_pos hdropped, if_pos (hdropped.imp_right hends.1)]
      · rw [if_neg hdropped, if_neg (mt (Or.imp_right hends.2) hdropped), edgesOf,
          List.filter_append, List.filter_singleton, ← edgesOf]
        simp [hsource]
    · rw [if_neg hsource, List.append_nil, ← ih]
      split
      · rfl
      · rw [edgesOf, List.filter_append, List.filter_singleton, ← edgesOf]
        simp [hsource]

theorem edgesOf_of_source {edges : List Edge} (h : ∀ edge ∈ edges, edge.source = key) :
    edgesOf key edges = edges :=
  List.filter_eq_self.2 fun edge hedge => decide_eq_true (h edge hedge)

theorem edgesOf_of_source_ne {edges : List Edge} (h : ∀ edge ∈ edges, edge.source = other)
    (hne : other ≠ key) : edgesOf key edges = [] :=
  List.filter_eq_nil_iff.2 fun edge hedge heq => hne ((h edge hedge).symm.trans (of_decide_eq_true heq))

/-- A part of another key changes nothing under a key. -/
theorem Holds.merge_other {more : Extraction} (h : Holds key part result) (hmore : Alone other more)
    (hne : other ≠ key) : Holds key part (result.merge more) where
  edges := by
    rw [merge, edgesOf_addEdges, edgesOf_of_source_ne hmore.source hne]
    exact h.edges
  exports := by
    rw [merge, Keyed.get?_foldl_put_of_keys hmore.exports, if_neg hne.symm]
    exact h.exports
  languages := by
    have hkeys : more.languages.keys.Sublist [other] := hmore.languages ▸ List.Sublist.refl _
    rw [merge, Keyed.get?_foldl_put_of_keys hkeys, if_neg hne.symm]
    exact h.languages

/-- A part that comes once more changes nothing. -/
theorem Holds.merge_own (hpart : Alone key part) (h : Holds key {} result ∨ Holds key part result) :
    Holds key part (result.merge part) where
  edges := by
    rw [merge, edgesOf_addEdges, edgesOf_of_source hpart.source]
    rcases h with h | h
    · rw [h.edges]
      exact hpart.edges
    · rw [h.edges]
      have hknown (edges : List Edge) (hsub : edges ⊆ part.edges) :
          addEdges part.edges edges = part.edges := by
        induction edges using List.reverseRecOn with
        | nil => rfl
        | append_singleton edges edge ih =>
          obtain ⟨hedges, hedge⟩ := List.append_subset.1 hsub
          rw [addEdges_concat, ih hedges, if_pos]
          exact .inr (List.mem_map_of_mem (hedge List.mem_cons_self))
      exact hknown part.edges (List.Subset.refl _)
  exports := by
    rw [merge, Keyed.get?_foldl_put_of_keys hpart.exports, if_pos rfl]
    rcases h with h | h
    · rw [h.exports]
      exact Option.or_none
    · rw [h.exports, Option.or_self]
  languages := by
    have hkeys : part.languages.keys.Sublist [key] := hpart.languages ▸ List.Sublist.refl _
    rw [merge, Keyed.get?_foldl_put_of_keys hkeys, if_pos rfl]
    rcases h with h | h
    · rw [h.languages]
      exact Option.or_none
    · rw [h.languages, Option.or_self]

theorem Within.merge (h : Within keys result) (hpart : Alone key part) (hkey : key ∈ keys) :
    Within keys (result.merge part) where
  source := by
    intro edge hedge
    rcases mem_of_mem_addEdges hedge with hedge | hedge
    · exact h.source edge hedge
    · exact hpart.source edge hedge ▸ hkey
  exports := by
    intro k hk
    rcases Keyed.mem_keys_foldl_put hk with hk | hk
    · exact h.exports hk
    · exact List.mem_singleton.1 (hpart.exports.subset hk) ▸ hkey
  languages := by
    intro k hk
    rcases Keyed.mem_keys_foldl_put hk with hk | hk
    · exact h.languages hk
    · have hlast : k ∈ part.languages.keys := hk
      rw [hpart.languages] at hlast
      exact List.mem_singleton.1 hlast ▸ hkey
  nodup := ⟨Keyed.nodup_keys_foldl_put h.nodup.1 _, Keyed.nodup_keys_foldl_put h.nodup.2 _⟩

end Merging

/-- A file is read by its key. -/
theorem ofFile_congr {path other : String} (h : Path.normalize path = Path.normalize other)
    (sources : Sources) : ofFile sources path = ofFile sources other := by
  unfold ofFile addFile
  rw [h]

variable {sources : Sources} {paths : List String} {result : Extraction}

/-- The last file of an extraction is merged into the extraction of the others. -/
theorem exists_of_extract_concat {last : String} (h : extract sources (paths ++ [last]) = .ok result) :
    ∃ before part, extract sources paths = .ok before ∧ ofFile sources last = .ok part ∧
      result = before.merge part := by
  rw [extract, List.foldlM_append] at h
  obtain ⟨before, hbefore, hrest⟩ := exists_of_bind_ok h
  rw [List.foldlM_cons] at hrest
  obtain ⟨next, hnext, hresult⟩ := exists_of_bind_ok hrest
  obtain rfl := Except.ok.inj hresult
  rw [addFile_eq_merge] at hnext
  cases hpart : ofFile sources last with
  | error failure =>
    rw [hpart] at hnext
    exact nomatch hnext
  | ok part =>
    rw [hpart] at hnext
    exact ⟨before, part, hbefore, rfl, (Except.ok.inj hnext).symm⟩

/-- An extraction holds what its files add, each under its key, and nothing under other keys. -/
theorem holds_of_extract (h : extract sources paths = .ok result) (key : String) :
    (key ∉ paths.map Path.normalize → Holds key {} result) ∧
      ∀ path ∈ paths, Path.normalize path = key →
        ∃ part, ofFile sources path = .ok part ∧ Holds key part result := by
  induction paths using List.reverseRecOn generalizing result with
  | nil =>
    obtain rfl := Except.ok.inj h
    exact ⟨fun _ => ⟨rfl, rfl, rfl⟩, nofun⟩
  | append_singleton paths last ih =>
    obtain ⟨before, part, hbefore, hpart, rfl⟩ := exists_of_extract_concat h
    obtain ⟨hnone, hsome⟩ := ih hbefore
    have halone := (adds_of_ofFile hpart).alone
    by_cases hlast : Path.normalize last = key
    · have hholds : Holds key part (before.merge part) := by
        rw [hlast] at halone
        refine .merge_own halone ?_
        by_cases hmem : key ∈ paths.map Path.normalize
        · obtain ⟨path, hpath, hkey⟩ := List.mem_map.1 hmem
          obtain ⟨other, hother, hholds⟩ := hsome path hpath hkey
          rw [ofFile_congr (hkey.trans hlast.symm), hpart] at hother
          exact .inr (Except.ok.inj hother ▸ hholds)
        · exact .inl (hnone hmem)
      refine ⟨fun hnew => absurd ?_ hnew, fun path _ hkey => ⟨part, ?_, hholds⟩⟩
      · exact List.mem_map.2 ⟨last, List.mem_append_right _ List.mem_cons_self, hlast⟩
      · rw [ofFile_congr (hkey.trans hlast.symm), hpart]
    · refine ⟨fun hnew => (hnone fun hmem => hnew ?_).merge_other halone hlast,
        fun path hpath hkey => ?_⟩
      · rw [List.map_append]
        exact List.mem_append_left _ hmem
      · rcases List.mem_append.1 hpath with hpath | hpath
        · obtain ⟨own, hown, hholds⟩ := hsome path hpath hkey
          exact ⟨own, hown, hholds.merge_other halone hlast⟩
        · exact absurd (List.mem_singleton.1 hpath ▸ hkey) hlast

theorem within_of_extract (h : extract sources paths = .ok result) :
    Within (paths.map Path.normalize) result := by
  induction paths using List.reverseRecOn generalizing result with
  | nil =>
    obtain rfl := Except.ok.inj h
    exact ⟨nofun, List.nil_subset _, List.nil_subset _, List.nodup_nil, List.nodup_nil⟩
  | append_singleton paths last ih =>
    obtain ⟨before, part, hbefore, hpart, rfl⟩ := exists_of_extract_concat h
    have hwithin := ih hbefore
    rw [List.map_append]
    have hmore : Within (paths.map Path.normalize ++ [Path.normalize last]) before :=
      ⟨fun edge hedge => List.mem_append_left _ (hwithin.source edge hedge),
        List.subset_append_of_subset_left _ hwithin.exports,
        List.subset_append_of_subset_left _ hwithin.languages, hwithin.nodup⟩
    exact hmore.merge (adds_of_ofFile hpart).alone (List.mem_append_right _ List.mem_cons_self)

end Extraction

/-! ## Graphs -/

namespace Graph

/-- A graph answers about the file at a path from what that file adds to an extraction. -/
structure Answers (graph : Graph) (path : String) (part : Extraction) : Prop where
  taking : graph.taking path = (part.edges.map (Path.normalize ·.target)).eraseDups
  calling : graph.calling path = (part.exports.get? path).getD []
  language : graph.language path = detectLanguage path

/-- The targets of a file are those of the edges whose source has its key. -/
theorem targetsFrom_eq (edges : List Edge) (path : String) : targetsFrom edges path =
    (edges.filter fun edge => Path.normalize edge.source = Path.normalize path).map
      fun edge => Path.normalize edge.target := by
  simp only [targetsFrom, valuesOf, forward, List.filter_map, List.map_map, Function.comp_def]
  exact congrArg _ (List.filter_congr fun edge _ => decide_eq_decide.2 Iff.rfl)

theorem exported_ofExtraction (extraction : Extraction) : (ofExtraction extraction).exported =
    Keyed.ofPairs (extraction.exports.map fun (path, symbols) => (Path.normalize path, symbols)) := rfl

theorem languages_ofExtraction (extraction : Extraction) : (ofExtraction extraction).languages =
    Keyed.ofPairs (extraction.languages.map fun (path, label) => (Path.normalize path, label)) := rfl

/-- The graph of an extraction answers about a file with a key of its own from that file, if every file
that is drawn to its key is read by it. -/
theorem answers_of_extract {sources : Sources} {paths : List String} {result : Extraction}
    (h : extract sources paths = .ok result) {path : String} (hpath : path ∈ paths)
    (hkey : Path.normalize path = path)
    (hown : ∀ other ∈ paths, Path.normalize (Path.normalize other) = path →
      Path.normalize other = path) :
    ∃ part, Extraction.ofFile sources path = .ok part ∧ (ofExtraction result).Answers path part := by
  obtain ⟨part, hpart, hholds⟩ := (Extraction.holds_of_extract h path).2 path hpath hkey
  have hwithin := Extraction.within_of_extract h
  have hkeys : ∀ key ∈ paths.map Path.normalize, Path.normalize key = path → key = path := by
    intro key hmem hsame
    obtain ⟨other, hother, rfl⟩ := List.mem_map.1 hmem
    exact hown other hother hsame
  refine ⟨part, hpart, ?_, ?_, ?_⟩
  · have hsources : (result.edges.filter fun edge =>
        Path.normalize edge.source = Path.normalize path) = Extraction.edgesOf path result.edges := by
      rw [Extraction.edgesOf]
      refine List.filter_congr fun edge hedge => decide_eq_decide.2 ⟨fun hsource => ?_, fun hsource => ?_⟩
      · exact hkeys edge.source (hwithin.source edge hedge) (hsource.trans hkey)
      · rw [hsource]
    rw [taking, ofExtraction, (takes_ofEdges _ _ _).1, getD_get?_index, ← targetsFrom, targetsFrom_eq,
      hsources, hholds.edges]
  · rw [calling, hkey, ← hholds.exports, exported_ofExtraction,
      Keyed.get?_ofPairs_normalize hwithin.nodup.1 hkey fun k hk => hkeys k (hwithin.exports hk)]
  · have hlanguages : (ofExtraction result).languages.get? path = some (detectLanguage path) := by
      rw [languages_ofExtraction, Keyed.get?_ofPairs_normalize hwithin.nodup.2 hkey
        fun k hk => hkeys k (hwithin.languages hk), hholds.languages]
      have hadds := Extraction.adds_of_ofFile hpart
      rw [hkey] at hadds
      cases hadds <;> exact Keyed.get?_cons .. ▸ if_pos rfl
    rw [language, hkey, hlanguages]

end Graph

end Dependency

end CodeReview
