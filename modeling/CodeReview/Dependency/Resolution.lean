import CodeReview.Dependency.Language
import CodeReview.Repository.Walk

/-!
# Resolving imports

The files of the repository that an import denotes. Each language turns an import into candidates,
of which the first that is a regular file below the root is taken. Types named in the header of a
Java file are looked up by simple name (`Sources.javaClasses`), where the first file in a walk of
the folders wins.

A candidate whose name is too long for the file system is a failure, not a miss.
-/

namespace CodeReview.Dependency

open Text

/-- A repository that imports are resolved in. -/
structure Sources where
  fs : FileSystem
  root : String

namespace Sources

/-! ## Candidates -/

/-- Whether a path is a regular file of the repository. A path that leads out of it by `..` is
not. -/
def hasFile (sources : Sources) (path : String) : Except Failure Bool :=
  if path.isEmpty || path == ".." || startsWith "../" path then .ok false
  else sources.fs.isFile (Path.under sources.root path)

/-- The first candidate, simplified, that is a regular file of the repository. -/
def firstFile? (sources : Sources) : List String → Except Failure (Option String)
  | [] => .ok none
  | candidate :: rest => do
    let path := if candidate.isEmpty then candidate else Path.simplify candidate
    if ← sources.hasFile path then return some path else sources.firstFile? rest

/-! ## Java -/

/-- The folders that packages start in. -/
def javaRoots : List String := ["", "src/main/java", "src/test/java", "src"]

/-- Where the file of a qualified name may be. -/
def javaCandidates (qualified : String) : List String :=
  let path := replaceChar '.' '/' qualified ++ ".java"
  javaRoots.map fun root => if root.isEmpty then path else Path.joinTo root path

/-- A Java import denotes the file of its type. A static one may name a member of the type; one of
a whole package denotes nothing. -/
def resolveJava (sources : Sources) (ref : Import) : Except Failure (List String) := do
  if endsWith ".*" ref.specifier then return []
  match ← sources.firstFile? (javaCandidates ref.specifier) with
  | some path => return [path]
  | none =>
    if ref.names.contains "static" && ref.specifier.contains '.' then
      let owner := onChars (Chars.beforeLast '.') ref.specifier
      return (← sources.firstFile? (javaCandidates owner)).toList
    else return []

/-! ## Python -/

/-- Where a module may be. -/
def pythonCandidates (module : String) : List String :=
  [module ++ ".py", Path.joinTo module "__init__.py"]

/-- The module itself and those of the imported names that are modules. -/
def resolveModule (sources : Sources) (parts : List String) (named : Bool) (names : List String) :
    Except Failure (List String) := do
  let own ←
    if named then sources.firstFile? (pythonCandidates (join "/" parts))
    else if parts.isEmpty then pure none
    else sources.firstFile? [(parts ++ ["__init__.py"]).foldl Path.joinTo ""]
  names.foldlM (fun targets name => do
    match ← sources.firstFile? (pythonCandidates (join "/" (parts ++ [name]))) with
    | some path => return if targets.contains path then targets else targets ++ [path]
    | none => return targets) own.toList

/-- A Python import denotes its module and those of its names that are modules. Dots in front count
from the folder of the importing file upwards; more of them than there are folders denote nothing. -/
def resolvePython (sources : Sources) (ref : Import) (importer : String) :
    Except Failure (List String) :=
  let chars := ref.specifier.toList
  let module := Chars.trimStart Path.isDot chars
  let dots := chars.length - module.length
  let names := if module.isEmpty then [] else (Chars.splitOn '.' module).map String.ofList
  if dots = 0 then sources.resolveModule names (!module.isEmpty) ref.names
  else
    let folders := (splitOn '/' importer).dropLast
    if folders.length < dots - 1 then .ok []
    else
      sources.resolveModule (folders.take (folders.length - (dots - 1)) ++ names)
        (!module.isEmpty) ref.names

/-! ## JavaScript -/

/-- Extensions that an import may leave out. -/
def impliedExtensions : List String := [".js", ".jsx", ".ts", ".tsx", ".json", ".css"]

/-- Extensions of the file that stands for a folder. -/
def indexExtensions : List String := [".js", ".jsx", ".ts", ".tsx", ".css"]

/-- Extensions that an import may name. -/
def knownExtensions : List String := impliedExtensions ++ [".mjs", ".cjs"]

/-- Whether an import denotes a file of the repository rather than a package. -/
def isRelative (specifier : String) : Bool := startsWith "." specifier || startsWith "/" specifier

/-- The path that an import denotes before an extension is looked for: from the root, or from the
folder of the importing file. What follows a question mark does not count. -/
def javascriptBase? (specifier importer : String) : Option String :=
  let specifier := onChars (fun cs => (Chars.splitFirst '?' cs).1) specifier
  let base? :=
    if startsWith "/" specifier then some (onChars (Chars.trimStart Path.isSlash) specifier)
    else if startsWith "." specifier then some (Path.joinTo (Path.parent importer) specifier)
    else none
  base?.map fun base => if base.isEmpty then "." else Path.simplify base

/-- Where the file of a path may be: the path itself if its extension is known, the path with an
extension, or the index file of a folder. -/
def javascriptCandidates (base : String) : List String :=
  (if knownExtensions.contains (lowercase (Path.suffix base)) then [base] else []) ++
    (if base == "." then [] else impliedExtensions.map (base ++ ·)) ++
    indexExtensions.map fun extension => Path.joinTo base ("index" ++ extension)

/-- A JavaScript import denotes a file if it starts with a dot or a slash and does not lead out of
the repository. -/
def resolveJavaScript (sources : Sources) (ref : Import) (importer : String) :
    Except Failure (List String) := do
  match javascriptBase? ref.specifier importer with
  | none => return []
  | some base =>
    if base == ".." || startsWith "../" base then return []
    else return (← sources.firstFile? (javascriptCandidates base)).toList

/-- The files that an import of a file denotes. -/
def resolve (sources : Sources) (language : Language) (ref : Import) (importer : String) :
    Except Failure (List String) :=
  match language with
  | .java => sources.resolveJava ref
  | .python => sources.resolvePython ref importer
  | .javascript => sources.resolveJavaScript ref importer

/-! ## Java classes -/

/-- Whether an entry of a folder counts as a folder; a link counts as what it denotes. -/
def isFolderEntry (fs : FileSystem) (location : String) : Entry → Bool
  | .folder => true
  | .link _ => (Walk.folderAt? fs location).isSome
  | _ => false

/-- The name of the class that a Java file is named for. -/
def className (file : String) : String := String.ofList (file.toList.take (file.length - 5))

/-- The Java files below a folder, by class name, in the order of a walk: the files of a folder by
name, then its folders by name. Links to folders are not followed, and a folder that cannot be read
by its path has no files. -/
def javaFilesBelow (fs : FileSystem) (root : String) : (depth : Nat) → (path : String) →
    List (String × String)
  | 0, _ => []
  | depth + 1, path =>
    match Walk.folderAt? fs (Walk.location root path) with
    | none => []
    | some place =>
      let files := (fs.listing place).filter fun (name, entry) =>
        endsWith ".java" name && !isFolderEntry fs (Walk.location root (Path.child path name)) entry
      let folders := (fs.listing place).filter fun (name, entry) =>
        entry.isFolder && !Filter.isIgnoredFolder name
      (files.map fun (name, _) => (className name, Path.normalize (Path.child path name))) ++
        folders.flatMap fun (name, _) => javaFilesBelow fs root depth (Path.child path name)

/-- The Java files of the repository by class name; of one name, the first is meant. -/
def javaClasses (sources : Sources) : List (String × String) :=
  javaFilesBelow sources.fs (Path.tidy sources.root) (Walk.folderCount sources.fs) ""

/-- The file of a Java class. -/
def javaClass? (sources : Sources) (name : String) : Option String :=
  sources.javaClasses.lookup name

end Sources

end CodeReview.Dependency
