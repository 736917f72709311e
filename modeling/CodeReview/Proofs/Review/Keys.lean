import CodeReview.Proofs.Dependency.Answers
import CodeReview.Proofs.Path.Keys
import CodeReview.Proofs.Repository.Visibility
import CodeReview.Proofs.Response.Issues
import CodeReview.Proofs.Review.Knowledge

/-!
# Paths of a walk as keys

A walk lists every file under the names that it is made of, while whatever is looked up by a path is
looked up by its key. `Checkout.lookups_of_walk` says what comes of that, from the index of the tree to
the records: where a path is plain, everything is about the file itself, and where it is not, the file is
missed.
-/

namespace CodeReview

open FileSystem ReviewM

/-! ## Issues -/

namespace Response

/-- Nothing in the value names a file. -/
def NamesNoFile (value : Json) : Prop :=
  ∀ fields : Fields, value = .obj fields → (fields.firstOf? pathKeys).filter Json.isTruthy = none

theorem path_of_issue? {path : String} {value : Json} {issue : Issue}
    (h : issue? path value = .ok (some issue)) (hvalue : NamesNoFile value) : issue.path = path := by
  cases value with
  | obj fields =>
    obtain ⟨described, hdescribed, hissue⟩ := exists_of_bind_ok h
    obtain rfl := Option.some.inj (Except.ok.inj hissue)
    obtain ⟨first, -, hrest⟩ := exists_of_bind_ok hdescribed
    obtain ⟨last, -, hissue⟩ := exists_of_bind_ok hrest
    obtain rfl := Except.ok.inj hissue
    simp only [hvalue fields rfl]
  | str s =>
    rw [issue?] at h
    split at h
    · cases h
    · obtain rfl := Option.some.inj (Except.ok.inj h)
      rfl
  | null | bool | int | float | arr => cases h

/-- An issue of a response about the file at a path that comes without a path: its item names no file and
stands in no group of another file. -/
def Unplaced (fields : Fields) (path : String) (issue : Issue) : Prop :=
  ∃ slot value, (Path.normalize path, value) ∈ itemsIn fields path slot ∧ NamesNoFile value ∧
    issue? (Path.normalize path) value = .ok (some issue)

theorem mem_issuesAt {items : List (String × Json)} {issues : List Issue}
    (h : issuesAt items = .ok issues) {item : String × Json} (hitem : item ∈ items) {issue : Issue}
    (hissue : issue? item.1 item.2 = .ok (some issue)) : issue ∈ issues := by
  obtain ⟨found, hfound, hissues⟩ := exists_of_bind_ok h
  obtain rfl := Except.ok.inj hissues
  refine List.mem_filterMap.2 ⟨some issue, ?_, rfl⟩
  have hall := mapM_eq_ok_iff.1 hfound
  clear hfound h hissues
  induction hall with
  | nil => exact nomatch hitem
  | cons hfirst _ ih =>
    rcases List.mem_cons.1 hitem with rfl | hitem
    · exact Except.ok.inj (hissue.symm.trans hfirst) ▸ List.mem_cons_self
    · exact List.mem_cons_of_mem _ (ih hitem)

/-- An issue without a path is among the issues of the outcome, with the key of the file for its path. -/
theorem mem_of_unplaced {response path : String} {outcome : Outcome} {fields : Fields} {issue : Issue}
    (h : Response.outcome response path = .ok outcome) (hfields : outcome.findings.parsed = some fields)
    (hissue : Unplaced fields path issue) :
    issue.path = Path.normalize path ∧ ∃ category, issue ∈ outcome.issuesIn category := by
  obtain ⟨slot, value, hitem, hnone, hissue⟩ := hissue
  refine ⟨path_of_issue? hissue hnone, ?_⟩
  rw [Response.outcome] at h
  split at h
  · obtain ⟨findings, hfindings, houtcome⟩ := exists_of_bind_ok h
    obtain rfl := Except.ok.inj houtcome
    obtain ⟨sorted, hsorted, hfound⟩ := exists_of_bind_ok hfindings
    obtain rfl := Except.ok.inj hfound
    obtain rfl := Option.some.inj hfields
    have hmem := mem_issuesAt (issues_of_categorize hsorted slot) hitem hissue
    cases slot with
    | some category => exact ⟨category, List.mem_append_left _ hmem⟩
    | none =>
      refine ⟨issue.category, List.mem_append_right _ (List.mem_filter.2 ⟨hmem, ?_⟩)⟩
      exact decide_eq_true rfl
  · split at h
    · obtain rfl := Except.ok.inj h
      cases hfields
    · cases h

end Response

/-- An issue is filed under its file if it has the path of the file or none. -/
theorem Outcome.filingPath_eq_iff {outcome : Outcome} {issue : Issue} :
    outcome.filingPath issue = outcome.path ↔ issue.path = outcome.path ∨ issue.path = "" := by
  rw [filingPath]
  split
  · next hempty => exact iff_of_true rfl (.inr (String.isEmpty_iff.1 hempty))
  · next hne => exact (or_iff_left fun h => hne (String.isEmpty_iff.2 h)).symm

/-! ## Nodes -/

namespace Checkout

variable {fs : FileSystem} {checkout : Checkout} {root path : String} {sizeLimit : Int}

theorem path_of_find? {found : Node} (h : checkout.find? path = some found) :
    found.path = Path.normalize path := by
  rw [find?] at h
  have hsame := List.find?_some h
  exact beq_iff_eq.1 hsame

/-- Among nodes with a path there is one that is found by it exactly if it is its own key. -/
theorem exists_find?_iff (h : path ∈ checkout.index.map (·.path)) :
    (∃ found, checkout.find? path = some found ∧ found.path = path) ↔ Path.normalize path = path := by
  constructor
  · rintro ⟨found, hfound, rfl⟩
    exact (path_of_find? hfound).symm
  · intro hkey
    obtain ⟨node, hnode, hpath⟩ := List.mem_map.1 h
    have hsome : (checkout.find? path).isSome = true := by
      rw [find?, hkey, List.find?_isSome]
      exact ⟨node, List.mem_reverse.2 hnode, beq_iff_eq.2 hpath⟩
    obtain ⟨found, hfound⟩ := Option.isSome_iff_exists.1 hsome
    exact ⟨found, hfound, (path_of_find? hfound).trans hkey⟩

/-- A node whose path no other node has is found by it exactly if it is its own key. -/
theorem find?_eq_some_iff (hnodup : (checkout.index.map (·.path)).Nodup) {node : Node}
    (h : node ∈ checkout.index) :
    checkout.find? node.path = some node ↔ Path.normalize node.path = node.path := by
  rw [← exists_find?_iff (List.mem_map_of_mem h)]
  constructor
  · exact fun hfound => ⟨node, hfound, rfl⟩
  · rintro ⟨found, hfound, hpath⟩
    have hmem := List.mem_reverse.1 (List.mem_of_find?_eq_some hfound)
    rw [hfound, List.inj_on_of_nodup_map hnodup hmem h hpath]

/-- What comes of the paths of a walk when they are looked up. -/
structure Lookups (fs : FileSystem) (checkout : Checkout) : Prop where
  key {node : Node} (h : node ∈ checkout.tree.nodes) :
    Path.normalize node.path = node.path ↔ Path.IsPlain node.path
  find {node : Node} (h : node ∈ checkout.tree.nodes) :
    checkout.find? node.path = some node ↔ Path.IsPlain node.path
  /-- The graph answers about a plain file from that file, if every file that is drawn to its key is read
  by it. -/
  graph {extraction : Dependency.Extraction}
    (hextraction : Dependency.extract ⟨fs, checkout.root⟩ (checkout.files.map (·.path)) =
      .ok extraction) {node : Node} (h : node ∈ checkout.files) (hplain : Path.IsPlain node.path)
    (hown : ∀ other ∈ checkout.files, Path.normalize (Path.normalize other.path) = node.path →
      Path.normalize other.path = node.path) :
    ∃ part, Dependency.Extraction.ofFile ⟨fs, checkout.root⟩ node.path = .ok part ∧
      (Dependency.Graph.ofExtraction extraction).Answers node.path part
  /-- Issues without a path are filed under the file, or else under the key of its path. -/
  issues {node : Node} (h : node ∈ checkout.files) {response : String} {outcome : Outcome}
    (houtcome : Response.outcome response node.path = .ok outcome) {fields : Fields}
    (hfields : outcome.findings.parsed = some fields) {issue : Issue}
    (hissue : Response.Unplaced fields node.path issue) :
    (∃ category, issue ∈ outcome.issuesIn category) ∧ (outcome.filingPath issue = node.path ↔
      Path.IsPlain node.path ∨ Path.normalize node.path = "")
  /-- When records are added, the node of a file of the report is found. -/
  records {plan : Plan} {prepared : Preparation} (hprepared : prepared.checkout = checkout)
    {report : Report} {session : Session}
    (hrun : (do
      let report ← plan.evaluateFiles prepared
      let report ← plan.addAssessment report
      plan.addSummaries report).runFrom (prepared.session fs) = (.ok report, session))
    {path : String} (h : path ∈ report.files) :
    path ∈ checkout.files.map (·.path) ∧
      ((∃ found, { checkout with index := session.nodes }.find? path = some found ∧
        found.path = path) ↔ Path.IsPlain path)

/-- In a walked repository whatever is looked up by the path of a file is that of the file exactly if the
path is plain. -/
theorem lookups_of_walk (hfs : fs.WellFormed) (hwalk : walk fs root sizeLimit = .ok checkout) :
    checkout.Lookups fs := by
  have hindex : checkout.index = checkout.tree.nodes := by
    obtain ⟨-, -, -, place, -, rfl⟩ := walk_eq_ok_iff.1 hwalk
    rfl
  have hnames : ∀ node ∈ checkout.tree.nodes, ∀ name ∈ namesIn node.path, IsName name := by
    obtain ⟨-, -, -, place, hresolve, rfl⟩ := walk_eq_ok_iff.1 hwalk
    exact (Walk.ordered_tree hfs (entry?_of_resolve hresolve)).isName_of_mem
      fun name hname => nomatch hname
  have hkey {node : Node} (h : node ∈ checkout.tree.nodes) :
      Path.normalize node.path = node.path ↔ Path.IsPlain node.path :=
    Path.normalize_eq_self_iff (hnames node h)
  have hfile {node : Node} (h : node ∈ checkout.files) : node ∈ checkout.tree.nodes :=
    (List.mem_filter.1 h).1
  have hnodup : (checkout.index.map (·.path)).Nodup := hindex ▸ (wellShaped_of_walk hfs hwalk).nodup
  refine ⟨hkey, fun h => ?_, fun hextraction node h hplain hown => ?_,
    fun h _ _ houtcome _ hfields _ hissue => ?_, ?_⟩
  · rw [find?_eq_some_iff hnodup (hindex ▸ h), hkey h]
  · refine Dependency.Graph.answers_of_extract hextraction (List.mem_map_of_mem h)
      ((hkey (hfile h)).2 hplain) fun other hother => ?_
    obtain ⟨file, hmem, rfl⟩ := List.mem_map.1 hother
    exact hown file hmem
  · obtain ⟨hpath, hmem⟩ := Response.mem_of_unplaced houtcome hfields hissue
    have hsame := Evaluator.path_of_outcome houtcome
    rw [← hsame, Outcome.filingPath_eq_iff, hpath, hsame, hkey (hfile h)]
    exact ⟨hmem, Iff.rfl⟩
  · rintro plan prepared rfl report session hrun path hpath
    have hknown : ∀ node ∈ prepared.checkout.files,
        node.path ∈ prepared.checkout.index.map (·.path) :=
      fun node hnode => hindex ▸ List.mem_map_of_mem (hfile hnode)
    obtain ⟨hpaths, hreport⟩ := plan.keeps_report prepared hknown (prepared.session fs) rfl
    rw [hrun] at hpaths hreport
    have hmem := hreport report rfl hpath
    refine ⟨hmem, ?_⟩
    obtain ⟨node, hnode, rfl⟩ := List.mem_map.1 hmem
    rw [← hkey (hfile hnode)]
    refine exists_find?_iff ?_
    change node.path ∈ session.paths
    rw [hpaths]
    exact hknown node hnode

theorem lookups_of_walk_linked : linked.WellFormed ∧ ∃ checkout, walk linked "repo" = .ok checkout ∧
    checkout.files.map (·.path) = ["lib/pom.xml", "src/package.json"] ∧ checkout.Lookups linked ∧
    ∀ node ∈ checkout.tree.nodes, checkout.find? node.path = some node := by
  have hfs : linked.WellFormed := by decide
  have hlookups := lookups_of_walk hfs walk_linked
  refine ⟨hfs, _, walk_linked, ?_, hlookups, fun node hnode => (hlookups.find hnode).2 ?_⟩
  · rw [files, tree_linked]
    rfl
  · rw [tree_linked] at hnode
    have hplain : ∀ path ∈ ["", "lib", "lib/pom.xml", "src", "src/package.json"],
        Path.IsPlain path := by
      simp only [List.forall_mem_cons, List.not_mem_nil, false_implies, implies_true, and_true]
      refine ⟨?_, ?_, ?_, ?_, ?_⟩ <;> constructor <;> simp <;> decide
    exact hplain _ (List.mem_map_of_mem (f := (·.path)) hnode)

/-! ### A file that is missed -/

/-- A repository with a file whose name starts with a blank. -/
def blankNamed : FileSystem where
  entries := [(["repo"], .folder), (["repo", " a.py"], .file [])]

/-- The key of a path that starts with a blank is another path, so the file is listed but not found. -/
theorem walk_not_found : blankNamed.WellFormed ∧ ∃ checkout node, walk blankNamed "repo" = .ok checkout ∧
    node ∈ checkout.files ∧ node.path = " a.py" ∧ Path.normalize node.path = "a.py" ∧
    checkout.find? node.path = none := by
  have hfs : blankNamed.WellFormed := by decide
  have hroot : blankNamed.resolve (Path.tidy "repo") = .ok (["repo"], .folder) :=
    resolve_of_within 9 (by decide) (by decide)
  have hfolder : blankNamed.isFolder (Path.tidy "repo") = .ok true :=
    isFolder_eq_true_iff.2 ⟨by cbv, ["repo"], hroot⟩
  have hread : Walk.folderAt? blankNamed "/repo" = some ["repo"] :=
    Walk.folderAt?_eq_some_iff.2 (resolve_of_within 9 (by decide) (by decide))
  have hfile : blankNamed.resolve "/repo/ a.py" = .ok (["repo", " a.py"], .file []) :=
    resolve_of_within 9 (by decide) (by decide)
  have hlisting : blankNamed.listing ["repo"] = [(" a.py", .file [])] := by cbv
  have hlisted : Walk.Listed blankNamed Filter.defaultSizeLimit "/repo" ["repo"] ""
      (blankNamed.listing ["repo"]) [["repo"]] [.node { path := " a.py" } []] [["repo"]] := by
    rw [hlisting]
    refine .list (Walk.step_eq_list_iff.2 ⟨.inl rfl, _, _, hfile, rfl, ?_, rfl⟩) .nil
    have hbytes : blankNamed.readBytes "/repo/ a.py" = .ok [] := by
      rw [readBytes, if_neg (by cbv; decide), hfile]
    exact (Filter.includes_of_readBytes (by decide) hbytes).trans rfl
  obtain ⟨after, hwalk⟩ := @Walk.exists_listedBelow blankNamed Filter.defaultSizeLimit ["repo"] rfl
  replace hwalk := (Walk.listedBelow_iff_of_read hread).1 hwalk
  have htree : Walk.tree blankNamed ["repo"] Filter.defaultSizeLimit =
      .node { path := "", isFolder := true } [.node { path := " a.py" } []] :=
    congrArg (Tree.node _) (hlisted.unique hwalk).1
  have hkey : Path.normalize " a.py" = "a.py" := by decide
  refine ⟨hfs, _, { path := " a.py" },
    walk_eq_ok_iff.2 ⟨by decide, by decide, hfolder, ["repo"], hroot, rfl⟩, ?_, rfl, hkey, ?_⟩
  · rw [files, htree]
    decide
  · rw [find?, hkey, htree]
    rfl

end Checkout

end CodeReview
