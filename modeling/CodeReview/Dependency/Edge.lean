/-!
# Dependency edges
-/

namespace CodeReview.Dependency

/-- One file depends on another. -/
structure Edge where
  source : String
  target : String
  kind : String := "import"
  isDirect : Bool := true
  deriving DecidableEq, Repr

/-- Whether two edges join the same files in the same direction; how they came about does not
count. -/
def Edge.sameEnds (a b : Edge) : Bool := a.source == b.source && a.target == b.target

/-- The edges without those that join the ends of an earlier one. -/
def Edge.unique (edges : List Edge) : List Edge :=
  (edges.foldl (fun seen edge => if seen.any edge.sameEnds then seen else edge :: seen) []).reverse

end CodeReview.Dependency
