import CodeReview.Evaluation.Priority
import CodeReview.Proofs.Sorting
import CodeReview.Proofs.Text.Parts
import Mathlib.Data.List.Nodup

/-!
# The order of evaluation

Files are put in another order, and none is lost or doubled.

* `ranked`: the files that others depend on, those with the most dependents first; the leading files are its
  front.
* `le_of_notMem_mostDependedOn`, `length_mostDependedOn_of_notMem`: what is left out of the leading files.
* `isEntryPoint_iff`: what it takes for the name of a file to look like that of an entry point.
* `exists_prioritized`: the order is made of the leading files, the entry points among the others, and the rest.
-/

namespace CodeReview

open Text

/-! ## Entry points -/

theorem isSmallWord_of_mem_entryPointWords : ∀ word ∈ entryPointWords, IsSmallWord word.toList := by
  intro word hword
  rw [entryPointWords] at hword
  simp only [List.mem_cons, List.not_mem_nil, or_false] at hword
  rcases hword with rfl | rfl | rfl <;> exact ⟨by decide, by decide, by decide, by decide⟩

/-- The name of the file has a word of an entry point, in capitals or small letters. -/
def Node.NamesEntryPoint (node : Node) : Prop :=
  ∃ word ∈ ["main", "app", "index"], HasPartIgnoringCase word.toList node.name.toList

theorem Node.isEntryPoint_iff {node : Node} : node.isEntryPoint = true ↔ node.NamesEntryPoint := by
  rw [Node.isEntryPoint, List.any_eq_true]
  refine exists_congr fun word => and_congr_right fun hword => ?_
  rw [hasPart, lowercase, onChars, String.toList_ofList]
  exact hasPart_lower_iff (isSmallWord_of_mem_entryPointWords word hword)

/-! ## The leading files -/

section Leading

variable {graph : Dependency.Graph} {files : List Node} {node other : Node}

/-- The files that others depend on, those with the most dependents first. -/
def ranked (graph : Dependency.Graph) (files : List Node) : List Node :=
  (files.filter fun node => 0 < dependentCount graph node).mergeSort fun a b =>
    dependentCount graph b ≤ dependentCount graph a

theorem mostDependedOn_eq (graph : Dependency.Graph) (files : List Node) :
    mostDependedOn graph files = (ranked graph files).take 5 := rfl

theorem moreDependents_trans (graph : Dependency.Graph) (a b c : Node)
    (hab : decide (dependentCount graph b ≤ dependentCount graph a) = true)
    (hbc : decide (dependentCount graph c ≤ dependentCount graph b) = true) :
    decide (dependentCount graph c ≤ dependentCount graph a) = true := by
  simp only [decide_eq_true_eq] at *
  omega

theorem moreDependents_total (graph : Dependency.Graph) (a b : Node) :
    (decide (dependentCount graph b ≤ dependentCount graph a) ||
      decide (dependentCount graph a ≤ dependentCount graph b)) = true := by
  simp only [Bool.or_eq_true, decide_eq_true_eq]
  omega

theorem mem_ranked : node ∈ ranked graph files ↔ node ∈ files ∧ 0 < dependentCount graph node := by
  rw [ranked, List.mem_mergeSort, List.mem_filter]
  simp

theorem pairwise_ranked (graph : Dependency.Graph) (files : List Node) :
    (ranked graph files).Pairwise fun a b => dependentCount graph b ≤ dependentCount graph a :=
  (List.pairwise_mergeSort (moreDependents_trans graph) (moreDependents_total graph) _).imp fun hab => by
    simpa using hab

/-- Files with the same number of dependents come in the order of the list. -/
theorem filter_ranked (graph : Dependency.Graph) (files : List Node) {count : Nat} (hcount : 0 < count) :
    (ranked graph files).filter (dependentCount graph · = count) =
      files.filter (dependentCount graph · = count) := by
  rw [ranked, filter_mergeSort (moreDependents_trans graph) (moreDependents_total graph), List.filter_filter]
  · refine List.filter_congr fun node _ => ?_
    by_cases hnode : dependentCount graph node = count
    · simp [hnode, hcount]
    · simp [hnode]
  · intro a b ha hb
    simp only [decide_eq_true_eq] at *
    omega

theorem mem_of_mem_mostDependedOn (h : node ∈ mostDependedOn graph files) :
    node ∈ files ∧ 0 < dependentCount graph node :=
  mem_ranked.1 (List.mem_of_mem_take h)

theorem mem_drop_ranked (hnode : node ∈ files) (hcount : 0 < dependentCount graph node)
    (hout : node ∉ mostDependedOn graph files) : node ∈ (ranked graph files).drop 5 := by
  have hmem := mem_ranked.2 ⟨hnode, hcount⟩
  rw [← List.take_append_drop 5 (ranked graph files), List.mem_append] at hmem
  exact hmem.resolve_left hout

theorem le_of_notMem_mostDependedOn (hnode : node ∈ files) (hout : node ∉ mostDependedOn graph files)
    (hother : other ∈ mostDependedOn graph files) :
    dependentCount graph node ≤ dependentCount graph other := by
  by_cases hcount : 0 < dependentCount graph node
  · exact (pairwise_ranked graph files).rel_of_mem_take_of_mem_drop hother (mem_drop_ranked hnode hcount hout)
  · omega

/-- A file that others depend on is left out only where there are enough. -/
theorem length_mostDependedOn_of_notMem (hnode : node ∈ files) (hcount : 0 < dependentCount graph node)
    (hout : node ∉ mostDependedOn graph files) : (mostDependedOn graph files).length = 5 := by
  have hdrop := List.length_pos_of_mem (mem_drop_ranked hnode hcount hout)
  rw [List.length_drop] at hdrop
  rw [mostDependedOn_eq, List.length_take]
  omega

/-- Of files with the same number of dependents, those in front of the list are leading. -/
theorem filter_mostDependedOn_prefix (graph : Dependency.Graph) (files : List Node) (count : Nat) :
    (mostDependedOn graph files).filter (dependentCount graph · = count) <+:
      files.filter (dependentCount graph · = count) := by
  by_cases hcount : 0 < count
  · rw [← filter_ranked graph files hcount]
    exact (List.take_prefix 5 (ranked graph files)).filter _
  · have hnone : (mostDependedOn graph files).filter (dependentCount graph · = count) = [] := by
      rw [List.filter_eq_nil_iff]
      intro node hnode
      have hpos := (mem_of_mem_mostDependedOn hnode).2
      simp only [decide_eq_true_eq]
      omega
    rw [hnone]
    exact List.nil_prefix

theorem nodup_mostDependedOn (graph : Dependency.Graph) (h : files.Nodup) :
    (mostDependedOn graph files).Nodup :=
  ((List.mergeSort_perm _ _).nodup_iff.2 (h.filter _)).sublist (List.take_sublist 5 _)

end Leading

/-! ## All files -/

section Parts

variable {graph : Dependency.Graph} {files leading nodes : List Node} {node : Node}

/-- Among files with different paths, one has the path of a member only if it is the member. -/
theorem any_path_iff (h : (files.map (·.path)).Nodup) (hnodes : ∀ node ∈ nodes, node ∈ files)
    (hnode : node ∈ files) : nodes.any (·.path == node.path) = true ↔ node ∈ nodes := by
  rw [List.any_eq_true]
  constructor
  · rintro ⟨other, hother, hpath⟩
    rw [← List.inj_on_of_nodup_map h (hnodes other hother) hnode (beq_iff_eq.1 hpath)]
    exact hother
  · intro hmem
    exact ⟨node, hmem, beq_self_eq_true _⟩

/-- The files outside of a part, selected by path and by what they are. -/
theorem filter_outside (h : (files.map (·.path)).Nodup) (hleading : ∀ node ∈ leading, node ∈ files) :
    (files.filter fun node => !leading.any (·.path == node.path)) = files.filter fun node => node ∉ leading := by
  refine List.filter_congr fun node hnode => ?_
  have hmem := any_path_iff h hleading hnode
  by_cases hin : node ∈ leading
  · simp [hmem.2 hin, hin]
  · simp [Bool.eq_false_iff.2 (mt hmem.1 hin), hin]

/-- Outside of a part, what is left behind the entry points are the files that are none. -/
theorem filter_rest (h : (files.map (·.path)).Nodup) :
    ((files.filter fun node => node ∉ leading).filter fun node =>
      !((files.filter fun node => node ∉ leading).filter Node.isEntryPoint).any (·.path == node.path)) =
    (files.filter fun node => node ∉ leading).filter fun node => !node.isEntryPoint := by
  refine List.filter_congr fun node hnode => ?_
  have hinside : ∀ node ∈ (files.filter fun node => node ∉ leading).filter Node.isEntryPoint, node ∈ files :=
    fun node hmem => (List.mem_filter.1 (List.mem_filter.1 hmem).1).1
  have hmem := any_path_iff h hinside (List.mem_filter.1 hnode).1
  by_cases hentry : node.isEntryPoint = true
  · rw [hmem.2 (List.mem_filter.2 ⟨hnode, hentry⟩), hentry]
  · rw [Bool.eq_false_iff.2 (mt hmem.1 fun hin => hentry (List.mem_filter.1 hin).2), Bool.eq_false_iff.2 hentry]

/-- The parts of the order, selected by what the files are. -/
theorem prioritize_eq (graph : Dependency.Graph) (h : (files.map (·.path)).Nodup) :
    prioritize graph files = mostDependedOn graph files ++
      (files.filter fun node => node ∉ mostDependedOn graph files).filter Node.isEntryPoint ++
      (files.filter fun node => node ∉ mostDependedOn graph files).filter fun node => !node.isEntryPoint := by
  have hleading : ∀ node ∈ mostDependedOn graph files, node ∈ files := fun node hnode =>
    (mem_of_mem_mostDependedOn hnode).1
  have hothers := filter_outside h hleading
  rw [prioritize, hothers, filter_rest h]

/-- No file is lost or doubled. -/
theorem prioritize_perm (graph : Dependency.Graph) (h : (files.map (·.path)).Nodup) :
    (prioritize graph files).Perm files := by
  have hnodup : files.Nodup := List.Nodup.of_map _ h
  have hleading : (mostDependedOn graph files).Perm
      (files.filter fun node => node ∈ mostDependedOn graph files) := by
    refine (List.perm_ext_iff_of_nodup (nodup_mostDependedOn graph hnodup) (hnodup.filter _)).2 fun node => ?_
    rw [List.mem_filter, decide_eq_true_eq]
    exact ⟨fun hnode => ⟨(mem_of_mem_mostDependedOn hnode).1, hnode⟩, And.right⟩
  have hothers := List.filter_append_perm Node.isEntryPoint
    (files.filter fun node => node ∉ mostDependedOn graph files)
  have hall := List.filter_append_perm (fun node => decide (node ∈ mostDependedOn graph files)) files
  simp only [← decide_not] at hall
  rw [prioritize_eq graph h, List.append_assoc]
  exact (hleading.append hothers).trans hall

/-- What each part of the order of evaluation holds: the leading files, the entry points among the others, and the
rest. -/
structure Prioritized (graph : Dependency.Graph) (files leading hinted rest : List Node) : Prop where
  order : prioritize graph files = leading ++ hinted ++ rest
  perm : (prioritize graph files).Perm files
  length_le : leading.length ≤ 5
  taken : ∀ node ∈ leading, 0 < dependentCount graph node
  descending : leading.Pairwise fun a b => dependentCount graph b ≤ dependentCount graph a
  /-- Of files with one number of dependents, those in front of the list come first and are taken first. -/
  ties : ∀ count, leading.filter (dependentCount graph · = count) <+: files.filter (dependentCount graph · = count)
  most : ∀ inside ∈ leading, ∀ outside ∈ files, outside ∉ leading →
    dependentCount graph outside ≤ dependentCount graph inside
  full : ∀ outside ∈ files, outside ∉ leading → 0 < dependentCount graph outside → leading.length = 5
  hinted_sublist : hinted.Sublist files
  mem_hinted_iff : ∀ node, node ∈ hinted ↔ node ∈ files ∧ node ∉ leading ∧ node.NamesEntryPoint
  rest_sublist : rest.Sublist files
  mem_rest_iff : ∀ node, node ∈ rest ↔ node ∈ files ∧ node ∉ leading ∧ ¬node.NamesEntryPoint

/-- The order of evaluation has all files, in three parts. -/
theorem prioritize_parts (graph : Dependency.Graph) (h : (files.map (·.path)).Nodup) :
    ∃ leading hinted rest, Prioritized graph files leading hinted rest := by
  let others := files.filter fun node => node ∉ mostDependedOn graph files
  have hparts : Prioritized graph files (mostDependedOn graph files) (others.filter Node.isEntryPoint)
      (others.filter fun node => !node.isEntryPoint) :=
    { order := prioritize_eq graph h
      perm := prioritize_perm graph h
      length_le := List.length_take_le 5 (ranked graph files)
      taken := fun node hnode => (mem_of_mem_mostDependedOn hnode).2
      descending := (pairwise_ranked graph files).take
      ties := filter_mostDependedOn_prefix graph files
      most := fun _ hinside _ houtside hout => le_of_notMem_mostDependedOn houtside hout hinside
      full := fun _ houtside hout hcount => length_mostDependedOn_of_notMem houtside hcount hout
      hinted_sublist := List.filter_sublist.trans List.filter_sublist
      mem_hinted_iff := fun node => by
        simp only [others, ← Node.isEntryPoint_iff, List.mem_filter, decide_eq_true_eq, and_assoc]
      rest_sublist := List.filter_sublist.trans List.filter_sublist
      mem_rest_iff := fun node => by
        simp only [others, ← Node.isEntryPoint_iff, List.mem_filter, decide_eq_true_eq, and_assoc,
          Bool.not_eq_true', Bool.not_eq_true] }
  exact ⟨_, _, _, hparts⟩

/-- Six files with dependents, of which the last one has the most. -/
def crowdedGraph : Dependency.Graph :=
  .ofEdges ((["b", "c", "d", "e", "f", "a"].map fun path => { source := "x", target := path }) ++
    [{ source := "y", target := "a" }]) [] []

/-- Those files in order, an entry point and another file behind them. -/
def crowdedFiles : List Node :=
  ["b", "c", "d", "e", "f", "a", "src/Main.py", "util.py"].map fun path => { path }

theorem prioritize_parts_crowded : (crowdedFiles.map (·.path)).Nodup ∧
    ∃ leading hinted rest, Prioritized crowdedGraph crowdedFiles leading hinted rest :=
  ⟨by decide, prioritize_parts crowdedGraph (by decide)⟩

end Parts

end CodeReview
