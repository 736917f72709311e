import CodeReview.Repository.Node
import CodeReview.Text.Scan

/-!
# Files worth an evaluation

Lock files, generated files and large files are not sent to the model.
-/

namespace CodeReview

open Text Scan

/-- Files that a package manager writes. -/
def lockFiles : List String :=
  ["package-lock.json", "yarn.lock", "pnpm-lock.yaml", "npm-shrinkwrap.json", "poetry.lock",
   "Pipfile.lock", "Cargo.lock", "composer.lock", "Gemfile.lock", "go.sum"]

/-- How the names of generated files end. -/
def generatedEndings : List String := [".min.js", ".min.css", ".bundle.js", ".chunk.js", ".map"]

/-- Whether a text ends with a word, in capitals or small letters. -/
def endsIgnoringCase (word : String) (cs : List Char) : Bool :=
  wordIgnoringCase? word (cs.drop (cs.length - word.length)) == some []

/-- Whether the name of a file says that it was generated. A line end after the name does not
count. -/
def isGenerated (name : String) : Bool :=
  let cs := name.toList
  let stem := if cs.getLast? == some '\n' then cs.dropLast else cs
  generatedEndings.any fun ending => endsIgnoringCase ending stem

namespace Node

/-- Whether a node is a file that is worth an evaluation. -/
def isEligible (node : Node) (sizeLimit : Int) : Bool :=
  !node.isFolder && !lockFiles.contains node.name && !isGenerated node.name && node.size ≤ sizeLimit

end Node

/-- The name of the file that the evaluation of a file is saved to. -/
def dumpName (path : String) : String := replaceChar '/' '_' path ++ ".json"

end CodeReview
