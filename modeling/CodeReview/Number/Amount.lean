import CodeReview.Json.Basic

/-!
# Amounts

A number that is written as it was given: whole, or with a point.
-/

namespace CodeReview

/-- A number as it was given. -/
inductive Amount
  | whole (n : Int)
  | real (x : Binary64)
  deriving DecidableEq, Repr

/-- An amount as it is written to a document. -/
def Amount.toJson : Amount → Json
  | whole n => .int n
  | real x => .float x

end CodeReview
