import CodeReview.Dependency.Graph

/-!
# The order of evaluation

The files that most others depend on come first, then those that look like entry points, then the
rest, each group in the order of the list but for the counts of the first.
-/

namespace CodeReview

open Text

/-- How many files count as most depended on. -/
def leadingFiles : Nat := 5

/-- Words in the name of an entry point. -/
def entryPointWords : List String := ["main", "app", "index"]

/-- Whether the name of a file looks like that of an entry point. -/
def Node.isEntryPoint (node : Node) : Bool :=
  entryPointWords.any fun word => hasPart word (lowercase node.name)

/-- How many files take a file. -/
def dependentCount (graph : Dependency.Graph) (node : Node) : Nat :=
  ((graph.dependentCounts).get? node.path).getD 0

/-- The files that others depend on, those with the most dependents first. -/
def mostDependedOn (graph : Dependency.Graph) (files : List Node) : List Node :=
  ((files.filter fun node => 0 < dependentCount graph node).mergeSort fun a b =>
    dependentCount graph b ≤ dependentCount graph a).take leadingFiles

/-- The files in the order of evaluation. -/
def prioritize (graph : Dependency.Graph) (files : List Node) : List Node :=
  let leading := mostDependedOn graph files
  let others := files.filter fun node => !leading.any (·.path == node.path)
  let hinted := others.filter Node.isEntryPoint
  let rest := others.filter fun node => !hinted.any (·.path == node.path)
  leading ++ hinted ++ rest

end CodeReview
