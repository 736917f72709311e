import CodeReview.Review.Aggregation
import Mathlib.Data.List.Induction

/-!
# What a report accounts for

Between outcomes and their report no issue is lost and none is doubled.

* `Report.Accounts`: each category of a report holds, path by path, exactly the issues of the outcomes
  in their order.
* `aggregate_accounts`: evaluations that are all done come to a report that accounts for their
  outcomes.

The filing of issues goes through three buckets at once; `Report.get_issues_ofOutcomes` says of one
bucket alone what has been added to it.
-/

namespace CodeReview

namespace Outcome

/-- The issues of an outcome in a category: those that came with it, then those that came without a
category and are given this one. -/
def issuesIn (outcome : Outcome) (category : Category) : List Issue :=
  outcome.findings.categories.get category ++
    outcome.findings.unsorted.filter (·.category = category)

/-- The path that an issue of an outcome is filed under: its own, or else that of the file. -/
def filingPath (outcome : Outcome) (issue : Issue) : String :=
  if issue.path.isEmpty then outcome.path else issue.path

/-- What an outcome adds to a category: an entry for its file, and its issues one by one. -/
def filings (outcome : Outcome) (category : Category) : List (String × List Issue) :=
  (outcome.path, []) ::
    (outcome.issuesIn category).map fun issue => (outcome.filingPath issue, [issue])

/-- The issues of outcomes in a category that are filed under a path. -/
def issuesUnder (outcomes : List Outcome) (category : Category) (path : String) : List Issue :=
  outcomes.flatMap fun outcome =>
    (outcome.issuesIn category).filter (outcome.filingPath · = path)

end Outcome

namespace Report

/-- The report accounts for the outcomes. -/
structure Accounts (report : Report) (outcomes : List Outcome) : Prop where
  /-- The files are those of the outcomes, each once, in the order in which they come first. -/
  files : report.files = (outcomes.map (·.path)).eraseDups
  /-- No category has two entries for a path. -/
  nodup (category : Category) : (report.issues.get category).keys.Nodup
  /-- Every file has an entry in each category. -/
  listed (category : Category) {path : String} (h : path ∈ report.files) :
    path ∈ (report.issues.get category).keys
  /-- The entry of a path holds the issues that are filed under it, one outcome after the other. Beside
  the files only paths with such an issue have one. -/
  entry (category : Category) (path : String) : (report.issues.get category).get? path =
    if path ∈ report.files ∨ Outcome.issuesUnder outcomes category path ≠ [] then
      some (Outcome.issuesUnder outcomes category path)
    else none
  /-- Every issue counts once. -/
  total (category : Category) :
    report.total category = (outcomes.flatMap (·.issuesIn category)).length

/-! ## One bucket -/

theorem get_issues_list (report : Report) (path : String) (category : Category) :
    (report.list path).issues.get category = (report.issues.get category).extend path [] := by
  cases category <;> exact Keyed.putNew_nil _ _

theorem get_issues_file (report : Report) (path : String) (category : Category) (issue : Issue)
    (other : Category) : (report.file path category issue).issues.get other =
      if other = category then
        (report.issues.get other).extend (if issue.path.isEmpty then path else issue.path) [issue]
      else report.issues.get other :=
  ByCategory.get_modify ..

/-- Of issues that are filed under categories of their own, a category gets its share. -/
theorem get_issues_foldl_file (report : Report) (outcome : Outcome) (categoryOf : Issue → Category)
    (issues : List Issue) (category : Category) :
    (issues.foldl (fun report issue => report.file outcome.path (categoryOf issue) issue)
      report).issues.get category =
    (report.issues.get category).extendAll
      ((issues.filter (categoryOf · = category)).map fun issue =>
        (outcome.filingPath issue, [issue])) := by
  induction issues generalizing report with
  | nil => rfl
  | cons issue issues ih =>
    rw [List.foldl_cons, ih, get_issues_file, List.filter_cons]
    by_cases h : categoryOf issue = category
    · simp [h, Keyed.extendAll, Outcome.filingPath]
    · simp [h, Ne.symm h]

/-- The issues that came with a category are filed under it and under no other. -/
theorem get_issues_sorted (report : Report) (outcome : Outcome) (category : Category) :
    (Category.all.foldl (fun report category =>
      (outcome.findings.categories.get category).foldl (·.file outcome.path category ·) report)
      report).issues.get category =
    (report.issues.get category).extendAll ((outcome.findings.categories.get category).map fun issue =>
      (outcome.filingPath issue, [issue])) := by
  have hstep (report : Report) (own : Category) (issues : List Issue) :
      (issues.foldl (·.file outcome.path own ·) report).issues.get category =
        if own = category then (report.issues.get category).extendAll
          (issues.map fun issue => (outcome.filingPath issue, [issue]))
        else report.issues.get category := by
    rw [get_issues_foldl_file report outcome fun _ => own]
    by_cases h : own = category
    · rw [if_pos h, List.filter_eq_self.2 fun _ _ => decide_eq_true h]
    · rw [if_neg h, List.filter_eq_nil_iff.2 fun _ _ => by simpa using h]
      rfl
  cases category <;> simp [Category.all, hstep]

theorem get_issues_merge (report : Report) (outcome : Outcome) (category : Category) :
    (report.merge outcome).issues.get category =
      (report.issues.get category).extendAll (outcome.filings category) := by
  rw [merge]
  dsimp only
  rw [get_issues_foldl_file, get_issues_sorted, get_issues_list, Outcome.filings, Outcome.issuesIn]
  simp only [Keyed.extendAll, List.foldl_cons, List.map_append, List.foldl_append]

/-- What a run over outcomes adds to a category, as one sequence of entries. -/
theorem get_issues_ofOutcomes (outcomes : List Outcome) (category : Category) :
    ((ofOutcomes outcomes).issues.get category) =
      Keyed.extendAll [] (outcomes.flatMap (·.filings category)) := by
  have hrun (report : Report) : (outcomes.foldl merge report).issues.get category =
      (report.issues.get category).extendAll (outcomes.flatMap (·.filings category)) := by
    induction outcomes generalizing report with
    | nil => rfl
    | cons outcome outcomes ih =>
      rw [List.foldl_cons, ih, get_issues_merge, List.flatMap_cons]
      simp only [Keyed.extendAll, List.foldl_append]
  exact (hrun {}).trans (congrArg (Keyed.extendAll · _) (ByCategory.get_const [] category))

/-! ## Files -/

theorem files_foldl_file (report : Report) (path : String) (categoryOf : Issue → Category)
    (issues : List Issue) :
    (issues.foldl (fun report issue => report.file path (categoryOf issue) issue) report).files =
      report.files := by
  induction issues generalizing report with
  | nil => rfl
  | cons issue issues ih => exact ih _

theorem files_merge (report : Report) (outcome : Outcome) :
    (report.merge outcome).files =
      if report.files.contains outcome.path then report.files
      else report.files ++ [outcome.path] := by
  rw [merge]
  dsimp only
  rw [files_foldl_file]
  simp only [Category.all, List.foldl_cons, List.foldl_nil]
  rw [files_foldl_file _ _ fun _ => .thingsDoneRight, files_foldl_file _ _ fun _ => .improvements,
    files_foldl_file _ _ fun _ => .errors]
  rfl

theorem files_ofOutcomes (outcomes : List Outcome) :
    (ofOutcomes outcomes).files = (outcomes.map (·.path)).eraseDups := by
  induction outcomes using List.reverseRecOn with
  | nil => rfl
  | append_singleton outcomes outcome ih =>
    rw [ofOutcomes, List.foldl_append, List.foldl_cons, List.foldl_nil, ← ofOutcomes, files_merge,
      ih, List.map_append, List.map_singleton, List.eraseDups_append]
    generalize outcomes.map (·.path) = paths
    by_cases h : outcome.path ∈ paths
    · simp [h, List.removeAll]
    · simp [h, List.removeAll, List.eraseDups_cons]

/-! ## Paths and counts -/

theorem filings_flatMap (outcome : Outcome) (category : Category) :
    (outcome.filings category).flatMap (·.2) = outcome.issuesIn category := by
  simp [Outcome.filings, List.flatMap_map]

theorem filings_filter (outcome : Outcome) (category : Category) (path : String) :
    ((outcome.filings category).filter (·.1 == path)).flatMap (·.2) =
      (outcome.issuesIn category).filter (outcome.filingPath · = path) := by
  have hissues (issues : List Issue) :
      ((issues.map fun issue => (outcome.filingPath issue, [issue])).filter (·.1 == path)).flatMap
        (·.2) = issues.filter (outcome.filingPath · = path) := by
    induction issues with
    | nil => rfl
    | cons issue issues ih =>
      rw [List.map_cons, List.filter_cons, List.filter_cons]
      by_cases h : outcome.filingPath issue = path <;> simp [h, ih]
  rw [Outcome.filings, List.filter_cons]
  split
  · rw [List.flatMap_cons, hissues]
    rfl
  · exact hissues _

/-- Where the filings of outcomes go: to their files, and to the paths of their issues. -/
theorem mem_filings_iff (outcomes : List Outcome) (category : Category) (path : String) :
    path ∈ (outcomes.flatMap (·.filings category)).map (·.1) ↔
      path ∈ (outcomes.map (·.path)).eraseDups ∨
        Outcome.issuesUnder outcomes category path ≠ [] := by
  simp only [Outcome.issuesUnder, Outcome.filings, List.mem_map, List.mem_flatMap, List.mem_cons,
    List.mem_eraseDups, ne_eq, List.flatMap_eq_nil_iff, List.filter_eq_nil_iff, decide_eq_true_eq]
  constructor
  · rintro ⟨entry, ⟨outcome, houtcome, rfl | ⟨issue, hissue, rfl⟩⟩, rfl⟩
    · exact .inl ⟨outcome, houtcome, rfl⟩
    · exact .inr fun hnone => hnone outcome houtcome issue hissue rfl
  · rintro (⟨outcome, houtcome, rfl⟩ | hsome)
    · exact ⟨_, ⟨outcome, houtcome, .inl rfl⟩, rfl⟩
    · push Not at hsome
      obtain ⟨outcome, houtcome, issue, hissue, rfl⟩ := hsome
      exact ⟨_, ⟨outcome, houtcome, .inr ⟨issue, hissue, rfl⟩⟩, rfl⟩

theorem accounts_ofOutcomes (outcomes : List Outcome) :
    (ofOutcomes outcomes).Accounts outcomes := by
  have hentry (category : Category) (path : String) :
      ((ofOutcomes outcomes).issues.get category).get? path =
        if path ∈ (ofOutcomes outcomes).files ∨ Outcome.issuesUnder outcomes category path ≠ [] then
          some (Outcome.issuesUnder outcomes category path)
        else none := by
    have hissues : ((outcomes.flatMap (·.filings category)).filter (·.1 == path)).flatMap (·.2) =
        Outcome.issuesUnder outcomes category path := by
      rw [List.filter_flatMap, List.flatMap_assoc]
      simp only [filings_filter, Outcome.issuesUnder]
    rw [get_issues_ofOutcomes, Keyed.get?_extendAll, hissues, files_ofOutcomes]
    simp only [mem_filings_iff]
    rfl
  refine ⟨files_ofOutcomes outcomes, fun category => ?_, fun category path hpath => ?_, hentry,
    fun category => ?_⟩
  · rw [get_issues_ofOutcomes]
    exact Keyed.nodup_keys_extendAll (m := []) List.nodup_nil _
  · exact Keyed.mem_keys_of_get? ((hentry category path).trans (if_pos (.inl hpath)))
  · rw [total, get_issues_ofOutcomes, Keyed.sum_length_extendAll, List.flatMap_assoc]
    simp only [filings_flatMap]
    exact Nat.zero_add _

end Report

namespace Evaluation

/-- The outcomes of evaluations by path. -/
def collectAll (evaluations : Keyed Evaluation) (timeout : Binary64) :
    Except Failure (List Outcome) :=
  evaluations.mapM fun (path, evaluation) => evaluation.collect path timeout

theorem aggregate_of_collectAll {evaluations : Keyed Evaluation} {timeout : Binary64}
    {outcomes : List Outcome} (h : collectAll evaluations timeout = .ok outcomes) :
    aggregate evaluations timeout = .ok (Report.ofOutcomes outcomes) := by
  rw [aggregate]
  change collectAll evaluations timeout >>= _ = _
  rw [h]
  rfl

/-- Evaluations that are all done give their outcomes. -/
theorem collectAll_done (outcomes : Keyed Outcome) (timeout : Binary64) :
    collectAll (outcomes.map fun entry => (entry.1, .done entry.2)) timeout = .ok outcomes.values := by
  induction outcomes with
  | nil => rfl
  | cons entry outcomes ih =>
    rw [collectAll, List.map_cons, List.mapM_cons]
    change collectAll (outcomes.map _) timeout >>= _ = _
    rw [ih]
    rfl

end Evaluation

/-- Evaluations that are all done come to the report of their outcomes, in order, and the report
accounts for them. -/
theorem aggregate_accounts (outcomes : Keyed Outcome) (timeout : Binary64) :
    Evaluation.aggregate (outcomes.map fun (path, outcome) => (path, .done outcome)) timeout =
      .ok (Report.ofOutcomes outcomes.values) ∧
    (Report.ofOutcomes outcomes.values).Accounts outcomes.values := by
  exact ⟨Evaluation.aggregate_of_collectAll (Evaluation.collectAll_done outcomes timeout),
    Report.accounts_ofOutcomes outcomes.values⟩

end CodeReview
