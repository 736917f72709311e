import CodeReview.Review.Outcome

/-!
# Reports

The review of a repository: issues by category and path, and what was written about the repository
as a whole. `merge` adds the outcome of one file. An issue is filed under its own path, or under
the path of the evaluated file if it has none.
-/

namespace CodeReview

/-- The review of a repository. -/
structure Report where
  issues : ByCategory (Keyed (List Issue)) := .const []
  comments : List String := []
  /-- The evaluated files, in order. -/
  files : List String := []
  summaries : Keyed String := []
  folderSummaries : Keyed String := []
  rootSummary : Option String := none

namespace Report

/-- Adds issues of a path to a category. -/
def add (report : Report) (category : Category) (path : String) (issues : List Issue) : Report :=
  { report with issues := report.issues.modify category (·.extend path issues) }

/-- The issues of a path in a category. -/
def issuesIn (report : Report) (category : Category) (path : String) : List Issue :=
  ((report.issues.get category).get? path).getD []

/-- The issues of a path, category by category. -/
def issuesFor (report : Report) (path : String) : List Issue :=
  Category.all.flatMap fun category => report.issuesIn category path

-- The sum is that of the core library, as in `Keyed`.
attribute [local instance (high)] Zero.ofOfNat0

/-- How many issues there are in a category. -/
def total (report : Report) (category : Category) : Nat :=
  ((report.issues.get category).map fun (_, issues) => issues.length).sum

/-- Files an issue under its own path, or under `path` if it has none. -/
def file (report : Report) (path : String) (category : Category) (issue : Issue) : Report :=
  report.add category (if issue.path.isEmpty then path else issue.path) [issue]

/-- Lists a file, with an entry in every category. -/
def list (report : Report) (path : String) : Report :=
  { report with
    files := if report.files.contains path then report.files else report.files ++ [path]
    issues := Category.all.foldl (fun issues category => issues.modify category (·.putNew path []))
      report.issues }

/-- Adds the outcome of one file. -/
def merge (report : Report) (outcome : Outcome) : Report :=
  let path := outcome.path
  let findings := outcome.findings
  let sorted := Category.all.foldl (fun report category =>
    (findings.categories.get category).foldl (·.file path category ·) report) (report.list path)
  let filed := findings.unsorted.foldl (fun report issue => report.file path issue.category issue)
    sorted
  { filed with
    summaries := match findings.summary with
      | some summary => filed.summaries.put path summary
      | none => filed.summaries
    comments := filed.comments ++ findings.comments }

/-- The report of the outcomes of several files. -/
def ofOutcomes (outcomes : List Outcome) : Report := outcomes.foldl merge {}

/-- A mapping of texts as it is written to a report. -/
def textsToJson (texts : Keyed String) : Json :=
  .obj (texts.map fun (path, text) => (path, .str text))

/-- The fields of a report as it is written. -/
def fields (report : Report) : Fields :=
  Category.all.map (fun category =>
    (category.key, .obj ((report.issues.get category).map fun (path, issues) =>
      (path, .arr (issues.map Issue.toJson))))) ++
  [("generalComments", .arr (report.comments.map .str)),
   ("files", .arr (report.files.map .str)),
   ("summaries", textsToJson report.summaries),
   ("folderSummaries", textsToJson report.folderSummaries),
   ("rootSummary", .ofText? report.rootSummary)]

end Report

end CodeReview
