import CodeReview.Dependency.Import
import CodeReview.Text.Scan

/-!
# Java source

What a Java file imports, which public types it declares, and which types its headers name after
`extends` and `implements`. The file is scanned as text: comments and strings are not told apart
from code.

Type arguments are dropped before a header is read. `stripGenerics` takes away the innermost pairs
of angle brackets until there is none.
-/

namespace CodeReview.Dependency.Java

open Text Scan

/-! ## Imports -/

def isPathChar (c : Char) : Bool := isWord c || c == '.'

/-- The semicolon that ends a statement, with white space before it. -/
def semicolon? (cs : List Char) : Option (List Char) := char? ';' (blanks cs)

/-- The path of an import up to its semicolon; true for a path that ends in `.*`, which is read
without that ending. -/
def importPath? (cs : List Char) : Option ((List Char × Bool) × List Char) := do
  let (path, rest) ← run? isPathChar cs
  match rest with
  | '*' :: rest =>
    guard (path.getLast? == some '.' && 2 ≤ path.length)
    return ((path.dropLast, true), ← semicolon? rest)
  | rest => return ((path, false), ← semicolon? rest)

/-- What an import statement imports. A static import is marked by the name `static`; `static` is
read as the path itself where no path follows it. -/
def import? (before : Option Char) (cs : List Char) : Option (Import × List Char) := do
  guard (atLineStart before)
  let body ← wordAndBlanks? "import" (blanks cs)
  let asStatic := do
    let (path, rest) ← wordAndBlanks? "static" body >>= importPath?
    return (path, ["static"], rest)
  let asPlain := do
    let (path, rest) ← importPath? body
    return (path, [], rest)
  let ((path, all), names, rest) ← asStatic.or asPlain
  if all then return (⟨String.ofList path ++ ".*", []⟩, rest)
  else return (⟨String.ofList path, names⟩, rest)

/-- The imports of a file. -/
def imports (text : List Char) : List Import := (findAll import? text).map (·.2)

/-! ## Exports -/

def modifiers : List String := ["abstract", "final", "static", "sealed", "non-sealed", "strictfp"]

/-- Drops the modifiers in front, each with white space after it. -/
def dropModifiers (cs : List Char) : List Char :=
  match modifiers.findSome? (wordAndBlanks? · cs) with
  | some rest => if rest.length < cs.length then dropModifiers rest else cs
  | none => cs
termination_by cs.length

/-- The text after the keyword of a type declaration. -/
def typeKeyword? (cs : List Char) : Option (List Char) :=
  ["class", "interface", "enum"].findSome? (word? · cs)

/-- The name of a public type. -/
def export? (before : Option Char) (cs : List Char) : Option (List Char × List Char) := do
  guard (atWordStart before)
  let body ← wordAndBlanks? "public" cs
  typeKeyword? (dropModifiers body) >>= someBlanks? >>= run? isWord

/-- The public types of a file. -/
def exports (text : List Char) : List String := names (findAll export? text)

/-! ## Type arguments -/

def isAngle (c : Char) : Bool := c == '<' || c == '>'

/-- Drops the pairs of angle brackets that hold no further bracket. -/
def stripInnermost : List Char → List Char
  | [] => []
  | '<' :: cs =>
    match _h : cs.dropWhile (!isAngle ·) with
    | '>' :: rest => stripInnermost rest
    | _ => '<' :: stripInnermost cs
  | c :: cs => c :: stripInnermost cs
termination_by cs => cs.length
decreasing_by
  · have := (List.dropWhile_suffix (!isAngle ·) (l := cs)).length_le
    simp only [_h, List.length_cons] at this ⊢
    omega
  · simp
  · simp

/-- Drops pairs of angle brackets, innermost first, until there is none. -/
def stripGenerics (cs : List Char) : List Char :=
  if (stripInnermost cs).length < cs.length then stripGenerics (stripInnermost cs) else cs
termination_by cs.length

/-! ## Inheritance -/

/-- How one type depends on another by its header. -/
inductive Heritage
  | extends
  | implements
  deriving DecidableEq, Repr

/-- What stands between the name of a declared type and the brace after it. -/
def header? (before : Option Char) (cs : List Char) : Option (List Char × List Char) := do
  guard (atWordStart before)
  let (_, rest) ← typeKeyword? cs >>= someBlanks? >>= run? isWord
  let (clause, rest) := rest.span fun c => c != '\x7b' && c != ';'
  return (clause, ← char? '\x7b' rest)

/-- A word and the white space after it, where a word may start. -/
def keyword? (w : String) (before : Option Char) (cs : List Char) : Option (Unit × List Char) := do
  guard (atWordStart before)
  return ((), ← wordAndBlanks? w cs)

/-- The word `implements`, whole. -/
def implementsWord? (before : Option Char) (cs : List Char) : Option (Unit × List Char) := do
  guard (atWordStart before)
  let rest ← word? "implements" cs
  guard (atWordEnd rest)
  return ((), rest)

/-- What the clause lists after `extends`: at least one character, up to the word `implements`. -/
def extendsList? (clause : List Char) : Option (List Char) := do
  let (_, _, rest) ← findFirst? (keyword? "extends") clause
  match rest with
  | [] => none
  | c :: cs =>
    match findFirst?.go implementsWord? [c] (some c) cs with
    | some (list, _, _) => some list
    | none => some rest

/-- What the clause lists after `implements`, to its end. -/
def implementsList? (clause : List Char) : Option (List Char) := do
  let (_, _, rest) ← findFirst? (keyword? "implements") clause
  return rest

/-- The simple names in a list of types: what follows the last point of each. -/
def typeNames (list : List Char) : List String :=
  let parts := (Chars.splitOn ',' list).map Chars.trim
  (parts.filter (!·.isEmpty)).map fun part => String.ofList (Chars.trim (Chars.afterLast '.' part))

/-- The types that the headers of a file name, with how they are inherited. -/
def heritage (text : List Char) : List (Heritage × String) :=
  (findAll header? text).flatMap fun (_, clause) =>
    let clause := stripGenerics clause
    ((extendsList? clause).map typeNames |>.getD []).map (.extends, ·) ++
      ((implementsList? clause).map typeNames |>.getD []).map (.implements, ·)

end CodeReview.Dependency.Java
