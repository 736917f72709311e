import CodeReview.Dependency.Java
import CodeReview.Dependency.JavaScript
import CodeReview.Dependency.Python
import CodeReview.Keyed
import CodeReview.Path.Basic

/-!
# Languages

The label of a file by its extension, and the languages whose sources are scanned.
-/

namespace CodeReview.Dependency

open Text

/-- Labels by extension; an extension that is not here is its own label. -/
def languageLabels : Keyed String :=
  [("java", "java"), ("py", "python"), ("js", "javascript"), ("mjs", "javascript"),
   ("cjs", "javascript"), ("jsx", "jsx"), ("ts", "typescript"), ("tsx", "tsx"), ("css", "css"),
   ("html", "html"), ("htm", "html"), ("md", "markdown"), ("json", "json"), ("yml", "yaml"),
   ("yaml", "yaml"), ("xml", "xml"), ("go", "go"), ("rb", "ruby"), ("php", "php"),
   ("cs", "csharp")]

/-- The label of the file at a path, if its name has a dot behind the dots it starts with. -/
def detectLanguage (path : String) : Option String :=
  let name := Chars.afterLast '/' path.toList
  if (Chars.trimStart Path.isDot name).contains '.' then
    let extension := Path.extension path
    some ((languageLabels.get? extension).getD extension)
  else none

/-- A language whose sources are scanned. -/
inductive Language
  | java
  | python
  | javascript
  deriving DecidableEq, Repr

namespace Language

def all : List Language := [java, python, javascript]

def name : Language → String
  | java => "java"
  | python => "python"
  | javascript => "javascript"

/-- The suffixes of a language's files. -/
def suffixes : Language → List String
  | java => [".java"]
  | python => [".py"]
  | javascript => [".js", ".jsx", ".ts", ".tsx", ".mjs", ".cjs"]

/-- The language of the file at a path. -/
def ofPath? (path : String) : Option Language :=
  all.find? (·.suffixes.contains (lowercase (Path.suffix path)))

/-- The language of a name. -/
def ofName? (name : String) : Option Language := all.find? (·.name == name)

def imports : Language → List Char → List Import
  | java => Java.imports
  | python => Python.imports
  | javascript => JavaScript.imports

def exports : Language → List Char → List String
  | java => Java.exports
  | python => Python.exports
  | javascript => JavaScript.exports

end Language

end CodeReview.Dependency
