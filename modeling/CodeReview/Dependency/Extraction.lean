import CodeReview.Dependency.Edge
import CodeReview.Dependency.Resolution

/-!
# Extracting dependencies

The dependency edges, exports and languages of a list of files. A file that cannot be read is
reported in a warning; an import that denotes no file is counted, unless it names a package.

Edges from a file to itself are dropped, and so are edges that join the ends of an earlier one.
-/

namespace CodeReview.Dependency

open Text

/-- What the files of a repository depend on and export. -/
structure Extraction where
  edges : List Edge := []
  exports : Keyed (List String) := []
  languages : Keyed (Option String) := []
  /-- What went wrong with files that could not be read. -/
  warnings : List String := []
  /-- How many imports denote no file. -/
  unresolved : Nat := 0

namespace Extraction

/-- How a type in the header of a file is inherited. -/
def heritageKind : Java.Heritage → String
  | .extends => "extends"
  | .implements => "implements"

/-- The edges from the headers of a Java file. -/
def heritageEdges (sources : Sources) (path : String) (text : List Char) : List Edge :=
  let classes := sources.javaClasses
  (Java.heritage text).filterMap fun (heritage, name) =>
    match classes.lookup name with
    | some target => if target.isEmpty then none else some ⟨path, target, heritageKind heritage, true⟩
    | none => none

/-- The edges of the imports of a file, and how many of them denote no file. -/
def importEdges (sources : Sources) (language : Language) (path : String) (imports : List Import) :
    Except Failure (List Edge × Nat) :=
  imports.foldlM (fun (edges, missing) ref => do
    let targets ← sources.resolve language ref path
    if targets.isEmpty then
      let counts := language != .javascript || Sources.isRelative ref.specifier
      return (edges, if counts then missing + 1 else missing)
    else return (edges ++ targets.map fun target => { source := path, target }, missing)) ([], 0)

/-- Adds the edges that are new and lead to another file. -/
def addEdges (known : List Edge) (edges : List Edge) : List Edge :=
  edges.foldl (fun known edge =>
    if edge.source == edge.target || known.any edge.sameEnds then known else known ++ [edge]) known

/-- Adds what one file depends on and exports. -/
def addFile (sources : Sources) (result : Extraction) (path : String) :
    Except Failure Extraction := do
  let path := Path.normalize path
  let result := { result with languages := result.languages.put path (detectLanguage path) }
  match Language.ofPath? path with
  | none => return result
  | some language =>
    match sources.fs.readBytes (Path.under sources.root path) with
    | .error (.system error at_) =>
      let warning := "Could not read " ++ path ++ ": " ++ (Failure.system error at_).message
      return { result with warnings := result.warnings ++ [warning] }
    | .error failure => throw failure
    | .ok bytes =>
      let text := Utf8.unifyLineEnds (Utf8.decode bytes)
      let (edges, missing) ← importEdges sources language path (language.imports text)
      let inherited := if language == .java then heritageEdges sources path text else []
      return { result with
        edges := addEdges result.edges (edges ++ inherited)
        exports := result.exports.put path (language.exports text)
        unresolved := result.unresolved + missing }

end Extraction

/-- The dependencies of the files at the given paths below a root. -/
def extract (sources : Sources) (paths : List String) : Except Failure Extraction :=
  paths.foldlM (Extraction.addFile sources) {}

end CodeReview.Dependency
