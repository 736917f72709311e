import CodeReview.Failure
import CodeReview.Review.Issue

/-!
# Outcomes of an evaluation

What came of the evaluation of one file: findings, or the message of a failure. A failure counts as
one issue of the file, of the gravest severity.
-/

namespace CodeReview

/-- What a response says about a file. -/
structure Findings where
  categories : ByCategory (List Issue) := .const []
  /-- Issues that came without a category. -/
  unsorted : List Issue := []
  summary : Option String := none
  comments : List String := []
  /-- The fields of the response, if it had any. -/
  parsed : Option Fields := none

/-- How an evaluation ended. -/
inductive Verdict
  | reviewed (findings : Findings)
  | failed (message : String)

/-- What came of the evaluation of one file. -/
structure Outcome where
  path : String
  verdict : Verdict

namespace Outcome

/-- The outcome of an evaluation that failed with a message. -/
def failure (path message : String) : Outcome := ⟨path, .failed message⟩

/-- The issue that stands for a failure. -/
def failureIssue (path message : String) : Issue :=
  { title := "Failed to evaluate file: " ++ message, path, severity := .error }

def isReviewed (outcome : Outcome) : Bool :=
  match outcome.verdict with
  | .reviewed _ => true
  | .failed _ => false

/-- The findings; those of a failure are the issue that stands for it. -/
def findings (outcome : Outcome) : Findings :=
  match outcome.verdict with
  | .reviewed findings => findings
  | .failed message =>
    { categories := { ByCategory.const [] with errors := [failureIssue outcome.path message] } }

end Outcome

end CodeReview
