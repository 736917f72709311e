import CodeReview.Failure
import CodeReview.Json.Basic
import CodeReview.Number.Reading
import CodeReview.Response.Fence

/-!
# Bullets

Lists in running text. `items` takes a section apart into its bullets; fenced code stays with the
bullet above it. `issue` reads one bullet as an issue: a code block, a severity in brackets in
front and a mark of its lines are taken out, and what is left is the title.
-/

namespace CodeReview.Response.Bullet

open Number Scan Text

/-! ## Items -/

/-- The text of a bullet on a line of its own. -/
def text? (line : List Char) : Option (List Char) :=
  match blanks line with
  | c :: rest => if c == '-' || c == '*' then someBlanks? rest else none
  | [] => none

/-- A section that has been read up to some line: its bullets, each as its lines, the last first,
and whether the line is inside a fence. -/
structure Progress where
  bullets : List (List (List Char)) := []
  inFence : Bool := false

namespace Progress

/-- Adds a line to the last bullet, if there is one. -/
def continued (progress : Progress) (line : List Char) : Progress :=
  match progress.bullets with
  | [] => progress
  | last :: before => { progress with bullets := (line :: last) :: before }

/-- Reads one line. -/
def read (progress : Progress) (line : List Char) : Progress :=
  if fence.isPrefixOf (Chars.trim line) then
    { progress.continued line with inFence := !progress.inFence }
  else if progress.inFence then progress.continued line
  else match text? line with
    | some text => { progress with bullets := [text] :: progress.bullets }
    | none => if Chars.isBlankText line then progress else progress.continued line

end Progress

/-- The bullets of a section that are not blank. -/
def items (lines : List (List Char)) : List (List Char) :=
  let bullets := (lines.foldl Progress.read {}).bullets
  (bullets.reverse.map fun lines => Chars.trim (Chars.join ['\n'] lines.reverse)).filter
    (!·.isEmpty)

/-! ## Issues -/

/-- A character of the word that follows the opening of a code block. -/
def isTagChar (c : Char) : Bool := isWord c || c == '+' || c == '-'

/-- Takes the first code block out of a text. Line ends at its end are dropped. -/
def takeCode (cs : List Char) : Option (List Char) × List Char :=
  match Chars.cut? fence cs with
  | none => (none, cs)
  | some (before, behind) =>
    let content := behind.dropWhile isTagChar
    match Chars.cut? fence ((char? '\n' content).getD content) with
    | none => (none, cs)
    | some (code, after) => (some (Chars.trimEnd (· == '\n') code), before ++ after)

/-- Takes a word in brackets off the front of a text. -/
def takeTag (cs : List Char) : Option (List Char) × List Char :=
  let tag := do
    let inner ← char? '[' (blanks cs)
    let (word, rest) ← run? Char.isAlpha inner
    let rest ← char? ']' rest
    return (word, blanks rest)
  match tag with
  | some (word, rest) => (some word, rest)
  | none => (none, cs)

/-- The second number of a range of lines, behind a dash. -/
def rangeEnd? (cs : List Char) : Option (List Char × List Char) :=
  match blanks cs with
  | c :: rest => if c == '-' || c == '–' then run? isDigit (blanks rest) else none
  | [] => none

/-- A mark of one line or a range of lines, as in `(lines 3-5):`. -/
def lineMark? (before : Option Char) (cs : List Char) :
    Option ((List Char × Option (List Char)) × List Char) := do
  let body ←
    match cs with
    | '(' :: cs => some cs
    | cs => if atWordStart before then some cs else none
  let word ← wordIgnoringCase? "line" body
  let rest ← ((wordIgnoringCase? "s" word) >>= someBlanks?).or (someBlanks? word)
  let (first, rest) ← run? isDigit rest
  let (last, rest) :=
    match rangeEnd? rest with
    | some (last, rest) => (some last, rest)
    | none => (none, rest)
  let rest := (char? ')' rest).getD rest
  return ((first, last), (char? ':' rest).getD rest)

/-- The number of a line. -/
def lineNumber (digits : List Char) : Except Failure Int :=
  match readInteger digits with
  | .ok n => .ok n
  | .error (.tooLong count) => .error (.tooManyDigits count digitLimit)
  | .error .malformed => .error (.tooManyDigits 0 digitLimit)

/-- The lines of an issue: its first, and its last. -/
abbrev LineRange := Option (Int × Int)

/-- Takes the first mark of lines out of a text; a space takes its place. -/
def takeLines (cs : List Char) : Except Failure (LineRange × List Char) := do
  match findFirst? lineMark? cs with
  | none => return (none, cs)
  | some (before, (first, last), after) =>
    let first ← lineNumber first
    let last ← match last with
      | some last => lineNumber last
      | none => pure first
    return (some (first, last), before ++ ' ' :: after)

/-- A character that is dropped at the ends of a title. -/
def isTitleEdge (c : Char) : Bool := c == ' ' || c == ':' || c == '-' || c == '–'

/-- The issue that a bullet describes, as the fields of a response. -/
def issue (bullet : List Char) : Except Failure Fields := do
  let (code, rest) := takeCode bullet
  let (tag, rest) := takeTag rest
  let (range, rest) ← takeLines rest
  return [
    ("title", .str (String.ofList (Chars.trimBoth isTitleEdge (Chars.squeeze rest)))),
    ("lineStart", .ofInt? (range.map (·.1))),
    ("lineEnd", .ofInt? (range.map (·.2))),
    ("severity", .ofText? (tag.map fun word => String.ofList (upper word))),
    ("codeSnippet", .ofText? (code.map String.ofList))]

end CodeReview.Response.Bullet
