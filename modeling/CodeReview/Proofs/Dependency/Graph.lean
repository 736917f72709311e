import CodeReview.Dependency.Graph
import Mathlib.Data.Finset.Card
import Mathlib.Data.List.Induction

/-!
# The two directions of the dependency graph

A graph that is made from edges is asked for what a file takes and for what takes it. The two answers
come from two indexes; `reflects_ofEdges` says that they tell of the same edges.

* `Graph.Reflects`: what the answers of a graph have to do with its edges.
* `get?_index`: an index that is filled pair by pair holds under each key the values of that key, each
  once, as they first came in.
-/

namespace CodeReview.Dependency

/-! ## Texts each once -/

theorem addNew_eraseDups (texts : List String) (t : String) :
    addNew texts.eraseDups t = (texts ++ [t]).eraseDups := by
  rw [addNew, List.eraseDups_append]
  by_cases h : t ∈ texts
  · simp [h, List.removeAll]
  · simp [h, List.removeAll, List.eraseDups_cons]

theorem foldl_addNew (texts : List String) : texts.foldl addNew [] = texts.eraseDups := by
  induction texts using List.reverseRecOn with
  | nil => rfl
  | append_singleton texts t ih =>
    rw [List.foldl_append, ih]
    exact addNew_eraseDups texts t

theorem nodup_addNew {texts : List String} (h : texts.Nodup) (t : String) :
    (addNew texts t).Nodup := by
  rw [addNew]
  split
  · exact h
  · next ht =>
    refine List.nodup_append.2 ⟨h, List.nodup_singleton t, fun other hother t' ht' => ?_⟩
    rintro rfl
    exact ht (List.contains_iff_mem.2 (List.mem_singleton.1 ht' ▸ hother))

theorem nodup_eraseDups (texts : List String) : texts.eraseDups.Nodup := by
  induction texts using List.reverseRecOn with
  | nil => exact List.nodup_nil
  | append_singleton texts t ih =>
    rw [← addNew_eraseDups]
    exact nodup_addNew ih t

/-! ## Indexes -/

/-- The values of a key among pairs. -/
def valuesOf (pairs : List (String × String)) (key : String) : List String :=
  (pairs.filter (·.1 = key)).map (·.2)

/-- Pairs one by one as an index: a value is added under its key unless it is there already. -/
def index (pairs : List (String × String)) : Keyed (List String) :=
  pairs.foldl (fun m pair => m.alter pair.1 fun old => addNew (old.getD []) pair.2) []

theorem mem_valuesOf {pairs : List (String × String)} {key value : String} :
    value ∈ valuesOf pairs key ↔ (key, value) ∈ pairs := by
  simp [valuesOf]

theorem valuesOf_append (pairs more : List (String × String)) (key : String) :
    valuesOf (pairs ++ more) key = valuesOf pairs key ++ valuesOf more key := by
  rw [valuesOf, List.filter_append, List.map_append]
  rfl

/-- No entry at all stands for no values. -/
theorem getD_eraseDups (values : List String) :
    (if values = [] then none else some values.eraseDups).getD [] = values.eraseDups := by
  split
  · next h => rw [h]; rfl
  · rfl

/-- Under a key stand its values, each once, in the order in which they first came in. -/
theorem get?_index (pairs : List (String × String)) (key : String) :
    (index pairs).get? key =
      if valuesOf pairs key = [] then none else some (valuesOf pairs key).eraseDups := by
  induction pairs using List.reverseRecOn with
  | nil => rfl
  | append_singleton pairs pair ih =>
    obtain ⟨k, value⟩ := pair
    have halter : index (pairs ++ [(k, value)]) =
        (index pairs).alter k fun old => addNew (old.getD []) value := by
      rw [index, List.foldl_append]
      rfl
    rw [halter, Keyed.get?_alter, valuesOf_append]
    by_cases hkey : key = k
    · subst hkey
      have hlast : valuesOf [(key, value)] key = [value] := by simp [valuesOf]
      rw [if_pos rfl, ih, getD_eraseDups, addNew_eraseDups, hlast, if_neg (by simp)]
    · have hlast : valuesOf [(k, value)] key = [] := by simp [valuesOf, Ne.symm hkey]
      rw [if_neg hkey, ih, hlast, List.append_nil]

theorem getD_get?_index (pairs : List (String × String)) (key : String) :
    ((index pairs).get? key).getD [] = (valuesOf pairs key).eraseDups := by
  rw [get?_index, getD_eraseDups]

namespace Graph

/-! ## Directions -/

/-- An edge between the keys of its files. -/
def forward (edge : Edge) : String × String :=
  (Path.normalize edge.source, Path.normalize edge.target)

/-- An edge between the keys of its files, the other way round. -/
def backward (edge : Edge) : String × String :=
  (Path.normalize edge.target, Path.normalize edge.source)

/-- The keys of the files that the edges of a file lead to, edge by edge. -/
def targetsFrom (edges : List Edge) (path : String) : List String :=
  valuesOf (edges.map forward) (Path.normalize path)

/-- The keys of the files whose edges lead to a file, edge by edge. -/
def sourcesInto (edges : List Edge) (path : String) : List String :=
  valuesOf (edges.map backward) (Path.normalize path)

/-- The answers of a graph tell of the edges, and of no others. -/
structure Reflects (graph : Graph) (edges : List Edge) : Prop where
  /-- What a file takes, each once, in the order of the edges. -/
  taking (path : String) : graph.taking path = (targetsFrom edges path).eraseDups
  /-- What takes a file, each once, in the order of the edges. -/
  dependents (path : String) : graph.dependents path = (sourcesInto edges path).eraseDups
  nodup (path : String) : (graph.taking path).Nodup ∧ (graph.dependents path).Nodup
  /-- A file takes another exactly if that one has it among its dependents. -/
  reverse (path other : String) :
    Path.normalize other ∈ graph.taking path ↔ Path.normalize path ∈ graph.dependents other
  /-- The count of a file is the number of different files whose edges lead to it. A file without
  such an edge has none. -/
  count (path : String) : graph.dependentCounts.get? (Path.normalize path) =
    if sourcesInto edges path = [] then none else some (sourcesInto edges path).toFinset.card
  /-- If one file is related to another, then so is the other to the one. -/
  related_comm (path other : String) :
    Path.normalize other ∈ graph.related path ↔ Path.normalize path ∈ graph.related other

theorem takes_ofEdges (edges : List Edge) (exports : List (String × List String))
    (languages : List (String × Option String)) :
    (ofEdges edges exports languages).takes = index (edges.map forward) ∧
      (ofEdges edges exports languages).takenBy = index (edges.map backward) := by
  change (edges.foldl addEdge {}).takes = _ ∧ (edges.foldl addEdge {}).takenBy = _
  induction edges using List.reverseRecOn with
  | nil => exact ⟨rfl, rfl⟩
  | append_singleton edges edge ih =>
    rw [List.foldl_append, List.map_append, List.map_append, index, List.foldl_append, index,
      List.foldl_append, ← index, ← index, ← ih.1, ← ih.2]
    exact ⟨rfl, rfl⟩

theorem mem_targetsFrom_iff {edges : List Edge} {path other : String} :
    Path.normalize other ∈ targetsFrom edges path ↔
      Path.normalize path ∈ sourcesInto edges other := by
  rw [targetsFrom, sourcesInto, mem_valuesOf, mem_valuesOf, List.mem_map, List.mem_map]
  refine exists_congr fun edge => and_congr_right fun _ => ?_
  rw [forward, backward, Prod.mk.injEq, Prod.mk.injEq, and_comm]

theorem mem_related_iff (graph : Graph) (path other : String) :
    other ∈ graph.related path ↔
      (other ∈ graph.taking path ∨ other ∈ graph.dependents path) ∧ other ≠ Path.normalize path := by
  rw [related, foldl_addNew, List.mem_filter, List.mem_eraseDups, List.mem_append, bne_iff_ne]

theorem get?_dependentCounts (graph : Graph) (key : String) :
    graph.dependentCounts.get? key = (graph.takenBy.get? key).map List.length := by
  rw [dependentCounts]
  generalize graph.takenBy = sources
  induction sources with
  | nil => rfl
  | cons entry sources ih =>
    rw [List.map_cons, Keyed.get?_cons, Keyed.get?_cons, ih]
    split <;> rfl

/-- A graph tells of the edges that it was made from. Paths are the same to it if they have the same
key, whether in an edge or in a question. -/
theorem reflects_ofEdges (edges : List Edge) (exports : List (String × List String))
    (languages : List (String × Option String)) :
    (ofEdges edges exports languages).Reflects edges := by
  obtain ⟨htakes, htakenBy⟩ := takes_ofEdges edges exports languages
  have htaking (path : String) :
      (ofEdges edges exports languages).taking path = (targetsFrom edges path).eraseDups := by
    rw [taking, htakes, getD_get?_index, targetsFrom]
  have hdependents (path : String) :
      (ofEdges edges exports languages).dependents path = (sourcesInto edges path).eraseDups := by
    rw [dependents, htakenBy, getD_get?_index, sourcesInto]
  have hreverse (path other : String) :
      Path.normalize other ∈ (ofEdges edges exports languages).taking path ↔
        Path.normalize path ∈ (ofEdges edges exports languages).dependents other := by
    rw [htaking, hdependents, List.mem_eraseDups, List.mem_eraseDups, mem_targetsFrom_iff]
  refine ⟨htaking, hdependents, fun path => ⟨?_, ?_⟩, hreverse, fun path => ?_, fun path other => ?_⟩
  · exact htaking path ▸ nodup_eraseDups _
  · exact hdependents path ▸ nodup_eraseDups _
  · have hcard : (sourcesInto edges path).toFinset.card = (sourcesInto edges path).eraseDups.length := by
      rw [← List.toFinset_card_of_nodup (nodup_eraseDups (sourcesInto edges path))]
      congr 1
      ext source
      simp
    rw [get?_dependentCounts, htakenBy, get?_index, ← sourcesInto, hcard]
    split <;> rfl
  · rw [mem_related_iff, mem_related_iff, hreverse path other, ← hreverse other path, or_comm, ne_comm]

end Graph

end CodeReview.Dependency
