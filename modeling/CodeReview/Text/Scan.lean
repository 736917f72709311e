import CodeReview.Text.Chars
import CodeReview.Text.Case

/-!
# Scanning text

A recogniser looks at the text from one place on and, where what it knows stands there, gives what
it read and the text after it. `findAll` applies one at every place from left to right and goes on
behind each find, so finds do not overlap.

The small recognisers here read the longest run they can. That is enough for the statements that
`CodeReview.Dependency` looks for, because what has to follow a run never starts with a character of
the run; where it can, the recogniser of the statement tries the shorter reading itself.
-/

namespace CodeReview.Scan

open Text

/-! ## Small recognisers -/

/-- The text after a word in front. -/
def word? (w : String) (cs : List Char) : Option (List Char) := Chars.dropPrefix? w.toList cs

/-- The text after a word in front, in capitals or small letters. -/
def wordIgnoringCase? (w : String) (cs : List Char) : Option (List Char) :=
  go w.toList cs
where
  go : List Char → List Char → Option (List Char)
    | [], cs => some cs
    | _ :: _, [] => none
    | l :: ls, c :: cs => if sameLetter l c then go ls cs else none

/-- The text after one character in front. -/
def char? (c : Char) : List Char → Option (List Char)
  | [] => none
  | d :: cs => if c == d then some cs else none

/-- Drops the white space in front. -/
def blanks (cs : List Char) : List Char := cs.dropWhile isBlank

/-- Drops the white space in front, of which there has to be some. -/
def someBlanks? : List Char → Option (List Char)
  | [] => none
  | c :: cs => if isBlank c then some (blanks cs) else none

/-- A word and the white space after it. -/
def wordAndBlanks? (w : String) (cs : List Char) : Option (List Char) :=
  word? w cs >>= someBlanks?

/-- The longest run of characters that satisfy `p`, of which there has to be one. -/
def run? (p : Char → Bool) (cs : List Char) : Option (List Char × List Char) :=
  match cs.span p with
  | ([], _) => none
  | found => some found

/-- Whether a word may start here: the character before is not part of a word. -/
def atWordStart (before : Option Char) : Bool := !before.any isWord

/-- Whether a word ends here: the next character is not part of a word. -/
def atWordEnd (cs : List Char) : Bool := !cs.head?.any isWord

/-- Whether a line starts here. -/
def atLineStart (before : Option Char) : Bool := before.all (· == '\n')

/-- The text up to the end of the line, and the text from there on. -/
def restOfLine (cs : List Char) : List Char × List Char := cs.span (· != '\n')

def isQuote (c : Char) : Bool := c == '\'' || c == '"'

/-- A text between quotes that holds none; the two quotes need not be alike. -/
def quotation? : List Char → Option (List Char × List Char)
  | [] => none
  | c :: cs => do
    guard (isQuote c)
    let (inner, rest) ← run? (!isQuote ·) cs
    guard (rest.head?.any isQuote)
    return (inner, rest.drop 1)

/-! ## Finding -/

/-- A find: where it starts, counted in characters, and what was read. -/
abbrev Find (α : Type) := Nat × α

/-- The finds of a recogniser in a text that starts at `position` and has `before` in front of it. A
find of no characters is passed over. -/
def findFrom {α : Type} (recognise : Option Char → List Char → Option (α × List Char)) (before : Option Char)
    (position : Nat) (cs : List Char) : List (Find α) :=
  match recognise before cs with
  | some (a, rest) =>
    if rest.length < cs.length then
      let length := cs.length - rest.length
      (position, a) :: findFrom recognise (cs[length - 1]?) (position + length) rest
    else match cs with
      | [] => []
      | c :: cs => findFrom recognise (some c) (position + 1) cs
  | none =>
    match cs with
    | [] => []
    | c :: cs => findFrom recognise (some c) (position + 1) cs
termination_by cs.length

/-- All finds of a recogniser in a text. -/
def findAll {α : Type} (recognise : Option Char → List Char → Option (α × List Char)) (cs : List Char) :
    List (Find α) :=
  findFrom recognise none 0 cs

/-- The first find of a recogniser: the text before it, what was read, and the text after it. -/
def findFirst? {α : Type} (recognise : Option Char → List Char → Option (α × List Char)) (cs : List Char) :
    Option (List Char × α × List Char) :=
  go [] none cs
where
  go (seen : List Char) (before : Option Char) (cs : List Char) :
      Option (List Char × α × List Char) :=
    match recognise before cs with
    | some (a, rest) => some (seen.reverse, a, rest)
    | none =>
      match cs with
      | [] => none
      | c :: cs => go (c :: seen) (some c) cs

/-- Finds by where they start; of finds at the same place the earlier in the list comes first. -/
def sorted {α : Type} (finds : List (Find α)) : List (Find α) :=
  finds.mergeSort fun a b => a.1 ≤ b.1

/-- Texts without the empty ones and without what came before. -/
def unique (texts : List String) : List String :=
  (texts.foldl (fun seen t => if t.isEmpty || seen.contains t then seen else t :: seen) []).reverse

/-- The texts that were found, by where they start, each once. -/
def names (finds : List (Find (List Char))) : List String :=
  unique ((sorted finds).map fun find => String.ofList find.2)

end CodeReview.Scan
