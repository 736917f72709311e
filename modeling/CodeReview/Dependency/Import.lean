/-!
# Import statements
-/

namespace CodeReview.Dependency

/-- One import statement: what it imports from, and the names it imports from there. -/
structure Import where
  specifier : String
  names : List String := []
  deriving DecidableEq, Repr

end CodeReview.Dependency
