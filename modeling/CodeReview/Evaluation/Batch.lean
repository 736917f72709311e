import CodeReview.Dependency.Graph
import CodeReview.Evaluation.Eligibility
import CodeReview.Json.Printer
import CodeReview.Response.Issues
import CodeReview.Review.Aggregation
import CodeReview.Review.Session
import CodeReview.Settings

/-!
# Batches of evaluations

One worker evaluates the eligible files one after the other, within one deadline. Every evaluation
pays for its call out of the budget of the session. Whatever goes wrong with a file stays with that
file: `Evaluator.contained` turns it into a failure of the evaluation.

When the deadline passes during the call about a file, the batch is cancelled: that file fails at
its next checkpoint, the budget is closed, and the files after it are not evaluated.
-/

namespace CodeReview

/-- A part of an evaluation during which the batch may be cancelled. -/
inductive EvaluationStep
  | paying
  | asking
  deriving DecidableEq, Repr

/-- What the evaluations of a batch share. -/
structure Evaluator where
  client : Client
  settings : Settings
  graph : Dependency.Graph
  /-- The root of the repository. -/
  root : String
  /-- The folder that parsed evaluations are saved to. -/
  dumpFolder : Option String := none

namespace Evaluator

/-- The prompt about a file. -/
def prompt (evaluator : Evaluator) (path content : String) : String :=
  Prompt.evaluation {
    path
    language := evaluator.graph.language path
    content := Prompt.truncate content evaluator.settings.maxChars
    taking := (evaluator.graph.taking path).map some
    dependents := (evaluator.graph.dependents path).map some
    calling := (evaluator.graph.calling path).map some }

/-- The call about a file. -/
def call (evaluator : Evaluator) (path prompt : String) : Call :=
  { purpose := .evaluation path, user := prompt
    maxTokens := evaluator.settings.maxTokens, temperature := evaluator.settings.temperature }

/-- What the evaluation of a file costs. -/
def cost (prompt : String) : Int := estimateTokens (prompt.length + Prompt.evaluationSystem.length)

/-- Saves what was read out of the response about a file. What the system refuses is let go. -/
def dump (evaluator : Evaluator) (path : String) (fields : Fields) : ReviewM Unit := do
  let some folder := evaluator.dumpFolder | return
  let text := (Json.obj fields).printIndented
  match (← get).fs.writeInto (Path.under folder (dumpName path)) text with
  | .ok fs => modify fun session => { session with fs }
  | .error (.system ..) => return
  | .error failure => throw failure

/-- Keeps what an outcome says about its file. -/
def keep (evaluator : Evaluator) (node : Node) (outcome : Outcome) : ReviewM Unit := do
  let findings := outcome.findings
  if let some summary := findings.summary.bind Text.nonEmpty? then
    modify fun session => session.keep { session.known node with summary := some summary }
  if let some fields := findings.parsed then evaluator.dump node.path fields

/-- Evaluates a file. The batch is cancelled during the given step, if there is one. -/
def evaluate (evaluator : Evaluator) (cancelledDuring : Option EvaluationStep) (node : Node) :
    ReviewM Outcome := do
  let content ← ReviewM.load evaluator.root node
  ReviewM.checkpoint
  let prompt := evaluator.prompt node.path content
  if cancelledDuring = some .paying then ReviewM.cancel
  ReviewM.pay (cost prompt)
  ReviewM.checkpoint
  if cancelledDuring = some .asking then ReviewM.cancel
  let response ← ReviewM.ask evaluator.client (evaluator.call node.path prompt)
  ReviewM.checkpoint
  let outcome ← ReviewM.lift (Response.outcome response node.path)
  evaluator.keep node outcome
  return outcome

/-- Evaluates a file, with every failure as an outcome. `isLate` says during the call about which
file the deadline passes. -/
def contained (evaluator : Evaluator) (isLate : String → Bool) (node : Node) : ReviewM Outcome := do
  try
    evaluator.evaluate (if isLate node.path then some .asking else none) node
  catch failure => return .failure node.path failure.described

/-- Evaluates files in order, until the batch is cancelled. -/
def evaluateAll (evaluator : Evaluator) (isLate : String → Bool) :
    List Node → ReviewM (List (String × Evaluation))
  | [] => return []
  | node :: nodes => do
    let outcome ← evaluator.contained isLate node
    if (← get).cancelled then
      ReviewM.closeBudget
      return (node.path, .done outcome) :: nodes.map fun node => (node.path, .cancelled)
    else return (node.path, .done outcome) :: (← evaluator.evaluateAll isLate nodes)

/-- Evaluates the eligible files of a list. Of evaluations of one path the last one counts. -/
def dispatch (evaluator : Evaluator) (isLate : String → Bool) (files : List Node) :
    ReviewM (Keyed Evaluation) := do
  if evaluator.settings.workers ≤ 0 then throw .noWorkers
  let eligible := files.filter (·.isEligible evaluator.settings.maxEvalBytes)
  return Keyed.ofPairs (← evaluator.evaluateAll isLate eligible)

end Evaluator

end CodeReview
