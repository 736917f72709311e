import CodeReview.Text.Chars
import CodeReview.Toml.Value

/-!
# Lines of a settings file

A first reading, character by character, that follows quotes, brackets and keys. It blanks the
comments, joins the lines of an array, and refuses a key without a value and a quotation without an
end. What is left is read line by line.

Some rules look at the characters just before the one at hand. At the very start of a text they look
at its end instead, as if the text stood on a ring.
-/

namespace CodeReview.Toml

open Text

/-- Where the reading of a key stands. -/
inductive KeyState
  | outside
  /-- In a part of a key. -/
  | inPart
  /-- Behind a part of a key. -/
  | behindPart
  deriving DecidableEq, Repr

/-- A text that has been read up to some character. -/
structure Progress where
  chars : Array Char
  /-- The quote that is open. -/
  quote : Option Char := none
  /-- Whether the open quotation may go over several lines. -/
  multiline : Bool := false
  openArrays : Int := 0
  inHeader : Bool := false
  inArrayHeader : Bool := false
  atLineStart : Bool := true
  key : KeyState := .outside
  /-- Whether the key has a dot in it. -/
  dotted : Bool := false
  /-- Whether a comment went on to the end of the text. -/
  ended : Bool := false

namespace Progress

/-- The character at a position; negative positions count from the end. -/
def charAt? (p : Progress) (i : Int) : Option Char :=
  if 0 ≤ i then p.chars[i.toNat]?
  else if -(p.chars.size : Int) ≤ i then p.chars[(i + p.chars.size).toNat]?
  else none

/-- How many characters in a row, from position `i` backwards, are `c`; at most `limit`. -/
def countBack (p : Progress) (c : Char) (i : Int) : (limit : Nat) → Nat
  | 0 => 0
  | limit + 1 => if p.charAt? i == some c then p.countBack c (i - 1) limit + 1 else 0

/-- Whether an odd number of backslashes ends at position `i`. -/
def isEscaped (p : Progress) (i : Int) : Bool :=
  p.countBack '\\' i (2 * p.chars.size) % 2 == 1

def fail : Except Fault α := .error .malformed

/-! ## Keys -/

/-- The state of a key after white space or a dot behind one of its parts: a new part starts where
the next character is neither. -/
def nextPart (p : Progress) (i : Nat) : Except Fault Progress :=
  match p.charAt? (i + 1) with
  | none => .error (.broken .outOfRange)
  | some next => .ok (if isBlank next || next == '.' then p else { p with key := .inPart })

/-- Reads a character of a key that is neither between quotes nor at the end of a line. Gives `none`
where the character belongs to no key. -/
def readInKey? (p : Progress) (i : Nat) (c : Char) : Except Fault (Option Progress) :=
  match p.key with
  | .inPart =>
    if isBlank c then .ok (some { p with key := .behindPart })
    else if c == '.' then .ok (some { p with dotted := true })
    else if isAlphanumeric c || c == '_' || c == '-' then .ok (some p)
    else if p.dotted && p.charAt? (i - 1 : Int) == some '.' && (c == '"' || c == '\'') then
      .ok (some { p with quote := some c })
    else .ok none
  | _ =>
    if isBlank c then (if p.dotted then (p.nextPart i).map some else .ok (some p))
    else if c == '.' then ({ p with dotted := true }.nextPart i).map some
    else .ok none

/-- Reads a character of a key. Gives the equals sign back to be read on. -/
def readKey (p : Progress) (i : Nat) (c : Char) : Except Fault (Progress × Bool) :=
  if c == '\n' then fail
  else match p.quote with
    | some quote =>
      if c == quote && !p.isEscaped (i - 1) then
        .ok ({ p with key := .behindPart, quote := none }, true)
      else .ok (p, true)
    | none => do
      match ← p.readInKey? i c with
      | some p => return (p, true)
      | none => if c == '=' then return ({ p with key := .outside, dotted := false }, false) else fail

/-! ## Quotes, comments and brackets -/

/-- Opens or closes a quotation at a quote: the third quote in a row does so for one over several
lines. -/
def toggleQuote (p : Progress) (i : Nat) (c : Char) : Progress :=
  let before := p.countBack c (i - 1 : Int) 2
  let triple := before == 2
  let escaped := c == '"' && before != 1 && p.isEscaped ((i : Int) - 1 - before)
  if escaped then p
  else if triple then
    { p with multiline := !p.multiline, quote := if p.multiline then none else some c }
  else { p with quote := if p.quote.isSome then none else some c }

/-- Reads a quote. -/
def readQuote (p : Progress) (i : Nat) (c : Char) : Progress :=
  if (c == '\'' && p.quote != some '"') || (c == '"' && p.quote != some '\'') then p.toggleQuote i c
  else p

/-- Blanks the text up to the end of the line. -/
def blankComment (p : Progress) (i : Nat) : Progress :=
  let length := ((p.chars.toList.drop i).takeWhile (· != '\n')).length
  { p with
    chars := (List.range length).foldl (fun chars k => chars.setIfInBounds (i + k) ' ') p.chars
    ended := i + length == p.chars.size }

/-- Reads a bracket. -/
def readBracket (p : Progress) (i : Nat) (c : Char) : Progress :=
  if c == '[' && p.quote.isNone && !p.inHeader && !p.inArrayHeader then
    if p.atLineStart then
      if p.charAt? (i + 1) == some '[' then { p with inArrayHeader := true }
      else { p with inHeader := true }
    else { p with openArrays := p.openArrays + 1 }
  else if c == ']' && p.quote.isNone then
    if p.inHeader then { p with inHeader := false }
    else if p.inArrayHeader then
      if p.charAt? (i - 1 : Int) == some ']' then { p with inArrayHeader := false } else p
    else { p with openArrays := p.openArrays - 1 }
  else p

/-! ## Ends of lines -/

/-- Reads a line end between quotes. One behind two quotes becomes a third, and a third before them
is blanked. -/
def closeBehind (p : Progress) (i : Nat) : Progress :=
  let at_ (k : Int) := p.charAt? ((i : Int) - k)
  if (at_ 1 == some '\'' || at_ 1 == some '"') && at_ 2 == at_ 1 then
    let quote := (at_ 1).getD '"'
    let chars := p.chars.setIfInBounds i quote
    let third := if 3 ≤ i then i - 3 else i + p.chars.size - 3
    { p with chars := if at_ 3 == some quote then chars.setIfInBounds third ' ' else chars }
  else p

/-- Reads a line end. -/
def readLineEnd (p : Progress) (i : Nat) : Except Fault Progress :=
  if p.quote.isSome || p.multiline then
    if p.multiline then .ok (p.closeBehind i) else fail
  else if p.openArrays != 0 then .ok { p with chars := p.chars.setIfInBounds i ' ' }
  else .ok { p with atLineStart := true }

/-- Reads the first character of a line that is no space: a key starts there, unless a header
does. -/
def readLineStart (p : Progress) (i : Nat) : Except Fault Progress :=
  let here := p.chars.getD i ' '
  if p.atLineStart && here != ' ' && here != '\t' then
    if p.inHeader || p.inArrayHeader then .ok { p with atLineStart := false }
    else if here == '=' then fail
    else .ok { p with atLineStart := false, key := .inPart }
  else .ok p

/-! ## The whole text -/

/-- Reads one character that belongs to no key. -/
def readOutside (p : Progress) (i : Nat) (c : Char) : Except Fault Progress :=
  let p := p.readQuote i c
  let p :=
    if c == '#' && p.quote.isNone && !p.inHeader && !p.inArrayHeader then p.blankComment i else p
  if p.ended then .ok p
  else
    let p := p.readBracket i c
    if c == '\n' then p.readLineEnd i else p.readLineStart i

/-- Reads one character. -/
def read (p : Progress) (i : Nat) : Except Fault Progress :=
  if p.ended then .ok p
  else
    let c := p.chars.getD i ' '
    if p.key = .outside then p.readOutside i c
    else do
      let (p, finished) ← p.readKey i c
      if finished then return p else p.readOutside i c

end Progress

/-- The lines that are left of a text. -/
def lines (text : List Char) : Except Fault (List (List Char)) := do
  let start : Progress := { chars := text.toArray }
  let p ← (List.range text.length).foldlM Progress.read start
  if p.key ≠ .outside || p.quote.isSome then throw .malformed
  return Chars.splitOn '\n' p.chars.toList

end CodeReview.Toml
