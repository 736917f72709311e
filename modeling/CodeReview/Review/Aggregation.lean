import CodeReview.Number.Decimal
import CodeReview.Review.Report

/-!
# Collecting evaluations

Evaluations that were asked for, and the report of their outcomes. An evaluation that was cancelled
or did not end in time counts as a failure of its file; one that broke off breaks off the report.
-/

namespace CodeReview

/-- How an evaluation that was asked for stands when its outcome is wanted. -/
inductive Evaluation
  | done (outcome : Outcome)
  | broken (failure : Failure)
  | cancelled
  | pending

namespace Evaluation

/-- How many seconds an outcome is waited for, unless settings say otherwise. -/
def defaultTimeout : Binary64 := .ofRatio false 30 1

/-- The message of an evaluation that was cancelled. -/
def cancelledMessage : String := "Evaluation cancelled before completion"

/-- The message of an evaluation that did not end in time. -/
def timeoutMessage (timeout : Binary64) : String :=
  "Evaluation timed out after " ++ DecimalLayout.wholeText timeout ++ "s"

/-- The outcome of the evaluation of the file at `path`. -/
def collect (path : String) (timeout : Binary64) : Evaluation → Except Failure Outcome
  | done outcome => .ok outcome
  | broken failure => .error failure
  | cancelled => .ok (.failure path cancelledMessage)
  | pending => .ok (.failure path (timeoutMessage timeout))

/-- The report of evaluations by path. -/
def aggregate (evaluations : Keyed Evaluation) (timeout : Binary64) : Except Failure Report := do
  let outcomes ← evaluations.mapM fun (path, evaluation) => evaluation.collect path timeout
  return Report.ofOutcomes outcomes

end Evaluation

end CodeReview
