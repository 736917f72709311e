import CodeReview.Dependency.Extraction

/-!
# The dependency graph

What each file takes, what takes it, and which symbols it offers. Paths are normalized when the
graph is made and when it is asked, so every spelling of a path asks for the same file.
-/

namespace CodeReview.Dependency

open Text

/-- Adds a text at the end of a list unless it is there. -/
def addNew (texts : List String) (t : String) : List String :=
  if texts.contains t then texts else texts ++ [t]

/-- Texts in code point order, each once. -/
def sortedUnique (texts : List String) : List String :=
  (texts.foldl addNew []).mergeSort fun a b => !decide (b < a)

/-- The dependency graph of a repository. -/
structure Graph where
  takes : Keyed (List String) := []
  takenBy : Keyed (List String) := []
  exported : Keyed (List String) := []
  languages : Keyed (Option String) := []

/-- What the graph says of one file. -/
structure FileContext where
  taking : List String
  dependents : List String
  calling : List String
  language : Option String
  sameFolder : List String

namespace Graph

/-- Adds an edge to both directions of the graph. -/
def addEdge (graph : Graph) (edge : Edge) : Graph :=
  let source := Path.normalize edge.source
  let target := Path.normalize edge.target
  { graph with
    takes := graph.takes.alter source fun old => addNew (old.getD []) target
    takenBy := graph.takenBy.alter target fun old => addNew (old.getD []) source }

/-- The graph of edges, exported symbols and languages. -/
def ofEdges (edges : List Edge) (exports : List (String × List String))
    (languages : List (String × Option String)) : Graph :=
  { edges.foldl addEdge {} with
    exported := Keyed.ofPairs (exports.map fun (path, symbols) => (Path.normalize path, symbols))
    languages :=
      Keyed.ofPairs (languages.map fun (path, language) => (Path.normalize path, language)) }

def ofExtraction (extraction : Extraction) : Graph :=
  ofEdges extraction.edges extraction.exports extraction.languages

/-- The files that a file imports or inherits from. -/
def taking (graph : Graph) (path : String) : List String :=
  (graph.takes.get? (Path.normalize path)).getD []

/-- The files that take a file. -/
def dependents (graph : Graph) (path : String) : List String :=
  (graph.takenBy.get? (Path.normalize path)).getD []

/-- The symbols that a file offers. -/
def calling (graph : Graph) (path : String) : List String :=
  (graph.exported.get? (Path.normalize path)).getD []

/-- The language of a file: the one given for it, else that of its extension. -/
def language (graph : Graph) (path : String) : Option String :=
  let key := Path.normalize path
  match graph.languages.get? key with
  | some language => language
  | none => if key.isEmpty then none else detectLanguage key

/-- Every file that the graph knows of, in order. -/
def paths (graph : Graph) : List String :=
  sortedUnique
    (graph.languages.keys ++ graph.takes.keys ++ graph.takenBy.keys ++ graph.exported.keys)

/-- The files joined to a file by an edge in either direction. -/
def related (graph : Graph) (path : String) : List String :=
  ((graph.taking path ++ graph.dependents path).foldl addNew []).filter (· != Path.normalize path)

/-- All that the graph says of a file. -/
def fileContext (graph : Graph) (path : String) : FileContext :=
  let key := Path.normalize path
  { taking := graph.taking key
    dependents := graph.dependents key
    calling := graph.calling key
    language := graph.language key
    sameFolder := graph.paths.filter fun p => p != key && Path.folder p == Path.folder key }

/-- How many files take each file that is taken. -/
def dependentCounts (graph : Graph) : Keyed Nat :=
  graph.takenBy.map fun (path, sources) => (path, sources.length)

end Graph

end CodeReview.Dependency
