import CodeReview.Failure
import CodeReview.Number.Amount
import CodeReview.Prompt

/-!
# Completion clients

Whoever answers the prompts of a review. A client is a function of the calls it has answered before
and of the call it is to answer, so a script, a model that keeps no memory and one that does are all
clients.
-/

namespace CodeReview

/-- What a completion is wanted for. -/
inductive Purpose
  /-- The evaluation of the file at a path. -/
  | evaluation (path : String)
  /-- The assessment of the repository. -/
  | assessment
  /-- A summary of summaries. -/
  | rollup
  deriving DecidableEq, Repr

/-- The instructions that go with a prompt. -/
def Purpose.system : Purpose → String
  | evaluation _ => Prompt.evaluationSystem
  | assessment => Prompt.assessmentSystem
  | rollup => Prompt.rollupSystem

/-- A call of the model. -/
structure Call where
  purpose : Purpose
  /-- The prompt. -/
  user : String
  maxTokens : Int
  temperature : Amount
  deriving DecidableEq, Repr

/-- Answers a call, given the calls before it. -/
abbrev Client := (earlier : List Call) → Call → Except Failure String

end CodeReview
