import CodeReview.Review.Session
import CodeReview.Settings
import CodeReview.Summary.Bullets

/-!
# The assessment of a repository

One call of the model about all files, whose answer becomes the general comments of the report. A
call that fails becomes a comment too.
-/

namespace CodeReview.Assessment

/-- The comment on an assessment that failed. -/
def failureComment (reason : String) : String := "Failed to generate overall assessment: " ++ reason

/-- Asks for the assessment of `count` files with summaries by path. -/
def comments (client : Client) (settings : Settings) (summaries : Keyed String) (count : Int) :
    ReviewM (List String) := do
  let call : Call :=
    { purpose := .assessment, user := Prompt.assessment summaries count
      maxTokens := settings.maxTokens, temperature := settings.temperature }
  try
    return Bullets.parse (← ReviewM.ask client call)
  catch failure => return [failureComment failure.message]

/-- Asks for the assessment and pays for it, unless the budget is closed. -/
def paidComments (client : Client) (settings : Settings) (summaries : Keyed String) (count : Int) :
    ReviewM (List String) := do
  if (← get).bucket.closed then return [failureComment "batch deadline reached"]
  ReviewM.pay (estimateTokens (Prompt.assessment summaries count).length)
  comments client settings summaries count

end CodeReview.Assessment
