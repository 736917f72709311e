import CodeReview.Dependency.Import
import CodeReview.Text.Scan

/-!
# Python source

What a Python file imports and what it exports. Every statement stands at the start of a line,
after spaces and tabs; a name list in parentheses may span lines. The exports are the names in
`__all__`, or without it the classes and functions at the top level whose names do not start with
a low line.
-/

namespace CodeReview.Dependency.Python

open Text Scan

/-- Drops the spaces and tabs in front. -/
def gaps (cs : List Char) : List Char := cs.dropWhile isGap

/-- The spaces and tabs in front, of which there has to be one, and the text after them. -/
def someGaps? (cs : List Char) : Option (List Char × List Char) := run? isGap cs

def isModuleChar (c : Char) : Bool := isWord c || c == '.'

/-! ## Imports -/

/-- A name list in parentheses. -/
def namesInParens? (cs : List Char) : Option (List Char × List Char) := do
  let inner ← char? '(' (gaps cs)
  let (clause, rest) := inner.span (· != ')')
  return (clause, ← char? ')' rest)

/-- A name list that is the rest of the line and does not start with a parenthesis. Where it would,
the last space before it is taken for its start, if there is another one to stand between. -/
def namesOnLine? (cs : List Char) : Option (List Char × List Char) := do
  let (between, rest) ← someGaps? cs
  if rest.head?.all fun c => c == '(' || c == '\n' then
    guard (2 ≤ between.length)
    let (line, rest) := restOfLine rest
    return (between.drop (between.length - 1) ++ line, rest)
  else return restOfLine rest

/-- A `from` statement with a name list of the given form: the module with its dots, and the list.
The module may be missing, where two spaces at least stand between the words. -/
def from? (nameList? : List Char → Option (List Char × List Char)) (before : Option Char)
    (cs : List Char) : Option ((List Char × List Char) × List Char) := do
  guard (atLineStart before)
  let (between, rest) ← word? "from" (gaps cs) >>= someGaps?
  let ofModule := do
    let (module, rest) := rest.span isModuleChar
    let (_, rest) ← someGaps? rest
    let (clause, rest) ← word? "import" rest >>= nameList?
    return ((module, clause), rest)
  let ofNothing := do
    guard (2 ≤ between.length)
    let (clause, rest) ← word? "import" rest >>= nameList?
    return (([], clause), rest)
  ofModule.or ofNothing

/-- The first word of a text, empty for a blank one. -/
def firstWord (cs : List Char) : List Char := (Chars.words cs).headD []

/-- The names in a list: the first word of each part, without what stands behind the first `#` of
the whole list. A star names nothing. -/
def importedNames (clause : List Char) : List String :=
  let code := (Chars.splitFirst '#' clause).1.map fun c => if c == '\\' then ' ' else c
  let names := (Chars.splitOn ',' code).map firstWord
  (names.filter fun name => !(name == [] || name == ['*'])).map String.ofList

def isImportChar (c : Char) : Bool := isWord c || c == '.' || c == ',' || isGap c

/-- The modules that an `import` statement lists, up to the end of the line or a comment. -/
def import? (before : Option Char) (cs : List Char) : Option (List Char × List Char) := do
  guard (atLineStart before)
  let (_, rest) ← word? "import" (gaps cs) >>= someGaps?
  let (modules, rest) := rest.span isImportChar
  guard (rest.head?.all fun c => c == '\n' || c == '#')
  return (modules, (restOfLine rest).2)

/-- The imports of a file, in the order of the statements. Of two readings of one statement, the
one in parentheses comes first. -/
def imports (text : List Char) : List Import :=
  let froms := (findAll (from? namesInParens?) text ++ findAll (from? namesOnLine?) text).map
    fun (at_, module, clause) => (at_, Import.mk (String.ofList module) (importedNames clause))
  let plain := (findAll import? text).flatMap fun (at_, modules) =>
    (((Chars.splitOn ',' modules).map firstWord).filter (!·.isEmpty)).map fun module =>
      (at_, Import.mk (String.ofList module) [])
  (sorted (froms ++ plain)).map (·.2)

/-! ## Exports -/

/-- The list that is assigned to `__all__`, without its brackets. -/
def allList? (before : Option Char) (cs : List Char) : Option (List Char × List Char) := do
  guard (atLineStart before)
  let rest := blanks (← word? "__all__" cs)
  let rest ← match rest with
    | ':' :: rest => do
      let (_, rest) ← run? (· != '=') rest
      pure rest
    | rest => pure rest
  let rest := blanks (← char? '=' rest)
  guard (rest.head?.any fun c => c == '[' || c == '(')
  let (inner, rest) := (rest.drop 1).span fun c => c != ']' && c != ')'
  guard (!rest.isEmpty)
  return (inner, rest.drop 1)

/-- A text between quotes. -/
def quoted? (_before : Option Char) (cs : List Char) : Option (List Char × List Char) :=
  quotation? cs

/-- The text after the keyword of a definition. -/
def definitionKeyword? (cs : List Char) : Option (List Char) :=
  let async := do
    let (_, rest) ← word? "async" cs >>= someGaps?
    word? "def" rest
  (async.or (word? "def" cs)).or (word? "class" cs)

/-- The name of a class or function at the top level. -/
def definition? (before : Option Char) (cs : List Char) : Option (List Char × List Char) := do
  guard (atLineStart before)
  let (_, rest) ← definitionKeyword? cs >>= someGaps?
  run? isWord rest

/-- The exports of a file. -/
def exports (text : List Char) : List String :=
  match findFirst? allList? text with
  | some (_, list, _) => names (findAll quoted? list)
  | none => names ((findAll definition? text).filter fun find => find.2.head? != some '_')

end CodeReview.Dependency.Python
