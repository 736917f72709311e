import CodeReview.Evaluation.Batch
import CodeReview.Evaluation.Priority
import CodeReview.Record
import CodeReview.Repository.Walk
import CodeReview.Summary.Assessment
import CodeReview.Summary.Rollup

/-!
# Reviewing a repository

From a folder to a report: the repository is walked, its dependency graph is drawn, the files are
evaluated in order of priority, the outcomes are collected, and then the repository as a whole is
assessed and summarized.

* `prepare`: everything up to the first call of the model. Only this part looks at the root.
* `conduct`: the rest, as a step on a session.
* `review`: both, with the files as they are afterwards, whether or not the review failed.
-/

namespace CodeReview

/-- What a review is to do. -/
structure Plan where
  client : Client
  settings : Settings
  /-- Whether the repository is assessed as a whole. -/
  assess : Bool := true
  /-- Whether folders and the repository are summarized. -/
  rollup : Bool := false
  /-- The file that records are added to. -/
  recordFile : Option String := none
  /-- The folder that parsed evaluations are saved to. -/
  dumpFolder : Option String := none
  /-- During the call about which file the deadline of the batch passes. -/
  isLate : String → Bool := fun _ => false

/-- What is known of a repository before the model is called. -/
structure Preparation where
  checkout : Checkout
  extraction : Dependency.Extraction
  bucket : Bucket Rat

/-- What came of a review. -/
structure Review where
  /-- The repository, with what was learnt of its files. -/
  checkout : Checkout
  extraction : Dependency.Extraction
  report : Report
  recordsWritten : Nat
  events : List Event

namespace Preparation

def graph (prepared : Preparation) : Dependency.Graph := .ofExtraction prepared.extraction

/-- The session in which a review starts. -/
def session (prepared : Preparation) (fs : FileSystem) : Session :=
  { fs, bucket := prepared.bucket, nodes := prepared.checkout.index }

end Preparation

namespace Plan

/-- Walks the repository at a root and draws its dependency graph. -/
def prepare (plan : Plan) (fs : FileSystem) (root : String) : Except Failure Preparation := do
  let checkout ← Checkout.walk fs root plan.settings.maxFileSize
  let extraction ← Dependency.extract ⟨fs, checkout.root⟩ (checkout.files.map Node.path)
  let bucket ← budget plan.settings.tokensPerMinute
  return { checkout, extraction, bucket }

def evaluator (plan : Plan) (prepared : Preparation) : Evaluator :=
  { client := plan.client, settings := plan.settings, graph := prepared.graph
    root := prepared.checkout.root, dumpFolder := plan.dumpFolder }

/-- The report of the files alone. -/
def evaluateFiles (plan : Plan) (prepared : Preparation) : ReviewM Report := do
  let files := prioritize prepared.graph prepared.checkout.files
  let evaluations ← (plan.evaluator prepared).dispatch plan.isLate files
  ReviewM.lift (Evaluation.aggregate evaluations plan.settings.resultTimeout)

/-- Adds the assessment of the repository to a report. -/
def addAssessment (plan : Plan) (report : Report) : ReviewM Report := do
  if !plan.assess || report.files.isEmpty then return report
  let comments ←
    Assessment.paidComments plan.client plan.settings report.summaries report.files.length
  return { report with comments := report.comments ++ comments }

/-- The name of the only run of a review. -/
def runName : String := "review"

/-- Adds the summaries of folders and of the repository to a report. -/
def addSummaries (plan : Plan) (report : Report) : ReviewM Report := do
  if !plan.rollup || report.summaries.isEmpty then return report
  let (folderSummaries, rootSummary) ←
    Rollup.fold plan.client plan.settings runName report.summaries
  return { report with folderSummaries, rootSummary }

/-- Records the files of a report, and says how many were recorded. -/
def addRecords (plan : Plan) (prepared : Preparation) (report : Report) : ReviewM Nat := do
  let some path := plan.recordFile | return 0
  let session ← get
  let found := { prepared.checkout with index := session.nodes }
  let nodes := report.files.filterMap found.find?
  let (written, fs) := Record.appendAll session.fs found.root prepared.graph path nodes
  set { session with fs }
  ReviewM.lift written

/-- Reviews a repository that has been prepared. -/
def conduct (plan : Plan) (prepared : Preparation) : ReviewM Review := do
  let report ← plan.evaluateFiles prepared
  let report ← plan.addAssessment report
  let report ← plan.addSummaries report
  let recordsWritten ← plan.addRecords prepared report
  let session ← get
  return {
    checkout := { prepared.checkout with index := session.nodes }
    extraction := prepared.extraction
    report, recordsWritten
    events := session.events }

/-- Reviews the repository at a root. -/
def review (plan : Plan) (fs : FileSystem) (root : String) : Except Failure Review × FileSystem :=
  match plan.prepare fs root with
  | .error failure => (.error failure, fs)
  | .ok prepared =>
    let (result, session) := (plan.conduct prepared).run.run (prepared.session fs)
    (result, session.fs)

end Plan

end CodeReview
