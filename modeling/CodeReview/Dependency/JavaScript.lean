import CodeReview.Dependency.Import
import CodeReview.Text.Scan

/-!
# JavaScript and TypeScript source

What a file of the JavaScript family imports and exports, in the module syntax of the language and
in the older one of `require` and `module.exports`. The file is scanned as text: comments and
strings are not told apart from code.
-/

namespace CodeReview.Dependency.JavaScript

open Text Scan

/-! ## Imports -/

/-- A module name between quotes, with the number of characters from its start to the end of the
file, which tells it apart from every other one. -/
def moduleName? (cs : List Char) : Option ((List Char × Nat) × List Char) := do
  let (name, rest) ← quotation? cs
  return ((name, cs.length), rest)

/-- Characters between `import` and the quote of a module name. -/
def isBindingChar (c : Char) : Bool :=
  isWord c || isBlank c || c == '*' || c == '\x7b' || c == '\x7d' || c == ',' || c == '$'

/-- Whether the text between `import` and a module name is a list of bindings and `from`: white
space, something, white space, and `from` with white space after it or none. -/
def isBindings (cs : List Char) : Bool :=
  let cs := Chars.trimEnd isBlank cs
  let bindings := cs.take (cs.length - 4)
  "from".toList.isSuffixOf cs && 3 ≤ bindings.length && bindings.head?.any isBlank &&
    bindings.getLast?.any isBlank

/-- `import … from 'module'`. -/
def importFrom? (before : Option Char) (cs : List Char) :
    Option ((List Char × Nat) × List Char) := do
  guard (atWordStart before)
  let (bindings, rest) := (← word? "import" cs).span isBindingChar
  guard (isBindings bindings)
  moduleName? rest

/-- `from 'module'` with white space before it or none. -/
def fromModule? (cs : List Char) : Option ((List Char × Nat) × List Char) :=
  word? "from" (blanks cs) >>= fun rest => moduleName? (blanks rest)

/-- `as name`, with white space before it. A name that ends in `from` may be read up to there, so
that nothing has to stand between it and `from`. -/
def asName? (cs : List Char) : Option ((List Char × Nat) × List Char) := do
  let (name, rest) ← someBlanks? cs >>= wordAndBlanks? "as" >>= run? isWord
  let whole := fromModule? rest
  let shorter := do
    guard (5 ≤ name.length && "from".toList.isSuffixOf name)
    moduleName? (blanks rest)
  whole.or shorter

/-- `type` with white space after it, or nothing. -/
def dropType (cs : List Char) : List Char := (wordAndBlanks? "type" cs).getD cs

/-- `export * from 'module'` or `export { … } from 'module'`. -/
def exportFrom? (before : Option Char) (cs : List Char) :
    Option ((List Char × Nat) × List Char) := do
  guard (atWordStart before)
  match dropType (← wordAndBlanks? "export" cs) with
  | '*' :: rest => (asName? rest).or (fromModule? rest)
  | '\x7b' :: rest => char? '\x7d' (rest.dropWhile (· != '\x7d')) >>= fromModule?
  | _ => none

/-- A word and a module name in parentheses after it. -/
def callOf? (function : String) (before : Option Char) (cs : List Char) :
    Option ((List Char × Nat) × List Char) := do
  guard (atWordStart before)
  let inner ← char? '(' (blanks (← word? function cs))
  let (name, rest) ← moduleName? (blanks inner)
  return (name, ← char? ')' (blanks rest))

/-- `import 'module'`. -/
def importOnly? (before : Option Char) (cs : List Char) :
    Option ((List Char × Nat) × List Char) := do
  guard (atWordStart before)
  wordAndBlanks? "import" cs >>= moduleName?

/-- Keeps the first of the finds of one module name. -/
def uniquePlaces (finds : List (Find (List Char × Nat))) : List (Find (List Char × Nat)) :=
  (finds.foldl (fun seen find => if seen.any (·.2.2 == find.2.2) then seen else find :: seen)
    []).reverse

/-- The imports of a file, in the order of the statements. -/
def imports (text : List Char) : List Import :=
  let finds := [importFrom?, exportFrom?, callOf? "import", callOf? "require", importOnly?].flatMap
    (findAll · text)
  (sorted (uniquePlaces finds)).map fun (_, name, _) => ⟨String.ofList name, []⟩

/-! ## Exports -/

def isNameStart (c : Char) : Bool := c.isAlpha || c == '_' || c == '$'

def isNameChar (c : Char) : Bool := isWord c || c == '$'

/-- An identifier. -/
def name? (cs : List Char) : Option (List Char × List Char) := do
  guard (cs.head?.any isNameStart)
  run? isNameChar cs

/-- A word with white space after it, or nothing. -/
def dropWord (w : String) (cs : List Char) : List Char := (wordAndBlanks? w cs).getD cs

/-- The text after `function` and its star, if it has one. -/
def functionKeyword? (cs : List Char) : Option (List Char) := do
  let rest ← word? "function" cs
  return (char? '*' rest).getD rest

/-- `async`, `function` and its star, the first and the last of them optional. -/
def asyncFunction? (cs : List Char) : Option (List Char) :=
  (wordAndBlanks? "async" cs >>= functionKeyword?).or (functionKeyword? cs)

/-- `class` with `abstract` before it or not. -/
def classKeyword? (cs : List Char) : Option (List Char) :=
  (wordAndBlanks? "abstract" cs >>= word? "class").or (word? "class" cs)

/-- Words that are no name of a default export. -/
def unnamed : List String := ["function", "class", "async", "extends"]

/-- The name of a default export; `default` where none is written. -/
def defaultExport? (before : Option Char) (cs : List Char) : Option (List Char × List Char) := do
  guard (atWordStart before)
  let body ← wordAndBlanks? "export" cs >>= wordAndBlanks? "default"
  let rest := ((asyncFunction? body).or (classKeyword? body)).getD body
  match name? (blanks rest) with
  | some (name, rest) =>
    return (if unnamed.contains (String.ofList name) then "default".toList else name, rest)
  | none => return ("default".toList, blanks rest)

/-- The name in a declaration; `const` may be followed by `enum`, or by a name that starts so. -/
def declaration? (cs : List Char) : Option (List Char × List Char) :=
  let named (rest : List Char) := someBlanks? rest >>= name?
  let constEnum := word? "const" cs >>= someBlanks? >>= word? "enum" >>= named
  let simple := ["const", "let", "var", "interface", "type", "enum"].findSome? fun w =>
    word? w cs >>= named
  (((functionKeyword? cs >>= named).or (classKeyword? cs >>= named)).or constEnum).or simple

/-- The name of an exported declaration. -/
def namedExport? (before : Option Char) (cs : List Char) : Option (List Char × List Char) := do
  guard (atWordStart before)
  declaration? (dropWord "async" (dropWord "declare" (← wordAndBlanks? "export" cs)))

/-- What stands between braces. -/
def braces? (cs : List Char) : Option (List Char × List Char) := do
  let (inner, rest) := (← char? '\x7b' cs).span (· != '\x7d')
  return (inner, ← char? '\x7d' rest)

/-- The list of `export { … }`. -/
def exportList? (before : Option Char) (cs : List Char) : Option (List Char × List Char) := do
  guard (atWordStart before)
  braces? (dropType (← wordAndBlanks? "export" cs))

/-- The name of an item of an export list: its last word where there is an `as`, else its first. -/
def listedName (item : List Char) : List Char :=
  let words := Chars.words item
  if words.contains "as".toList then words.getLastD [] else words.headD []

/-- The property that is assigned on `exports`. -/
def exportsProperty? (before : Option Char) (cs : List Char) :
    Option (List Char × List Char) := do
  guard (atWordStart before)
  let (name, rest) ← word? "exports." ((word? "module." cs).getD cs) >>= name?
  return (name, ← char? '=' (blanks rest))

/-- The text after `module.exports =`. -/
def moduleExports? (before : Option Char) (cs : List Char) : Option (List Char) := do
  guard (atWordStart before)
  let rest ← word? "module.exports" cs
  return blanks (← char? '=' (blanks rest))

/-- The properties of an object that is assigned to `module.exports`. -/
def moduleObject? (before : Option Char) (cs : List Char) : Option (List Char × List Char) :=
  moduleExports? before cs >>= braces?

/-- The name of a property: what stands before a colon or a parenthesis, without quotes. Spreads
have none. -/
def propertyName (item : List Char) : List Char :=
  let key := Chars.trim (Chars.splitFirst '(' (Chars.splitFirst ':' item).1).1
  if "...".toList.isPrefixOf key then [] else Chars.trimBoth isQuote key

/-- A name that is not one of the words that start another expression. -/
def plainName? (cs : List Char) : Option (List Char × List Char) := do
  guard (["function", "class", "require"].all fun w => !(word? w cs).any atWordEnd)
  name? cs

/-- The name of what is assigned to `module.exports`. -/
def assignedName? (before : Option Char) (cs : List Char) : Option (List Char × List Char) := do
  let body ← moduleExports? before cs
  let ofFunction := asyncFunction? body >>= someBlanks? >>= plainName?
  let ofClass := wordAndBlanks? "class" body >>= plainName?
  (ofFunction.or ofClass).or (plainName? body)

/-- The exports of a file, in the order of the statements. -/
def exports (text : List Char) : List String :=
  let lists := (findAll exportList? text).flatMap fun (at_, list) =>
    (Chars.splitOn ',' list).map fun item => (at_, listedName item)
  let objects := (findAll moduleObject? text).flatMap fun (at_, object) =>
    (Chars.splitOn ',' object).map fun item => (at_, propertyName item)
  names (findAll defaultExport? text ++ findAll namedExport? text ++ lists ++
    findAll exportsProperty? text ++ objects ++ findAll assignedName? text)

end CodeReview.Dependency.JavaScript
