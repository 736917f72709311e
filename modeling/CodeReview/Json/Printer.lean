import CodeReview.Json.Basic
import CodeReview.Number.Decimal
import CodeReview.Text.Quoted

/-!
# Writing JSON

Two forms: on one line, with a space after each comma and colon, and indented by two spaces a
level. In strings only the quote, the backslash and control characters are escaped.
-/

namespace CodeReview.Json

open Text

/-- One character of a string. -/
def escapedChar (c : Char) : List Char :=
  if c == '"' then ['\\', '"']
  else if c == '\\' then ['\\', '\\']
  else if c == '\n' then ['\\', 'n']
  else if c == '\r' then ['\\', 'r']
  else if c == '\t' then ['\\', 't']
  else if c == '\x0c' then ['\\', 'f']
  else if c == '\x08' then ['\\', 'b']
  else if c.toNat < 0x20 then '\\' :: 'u' :: hex 4 c.toNat
  else [c]

/-- A string between quotes. -/
def printString (s : String) : String :=
  onChars (fun cs => '"' :: cs.flatMap escapedChar ++ ['"']) s

mutual

/-- A value on one line. -/
def print : Json → String
  | null => "null"
  | bool b => if b then "true" else "false"
  | int n => toString n
  | float x => DecimalLayout.document.text x
  | str s => printString s
  | arr items => "[" ++ join ", " (printItems items) ++ "]"
  | obj fields => "\x7b" ++ join ", " (printFields fields) ++ "\x7d"

def printItems : List Json → List String
  | [] => []
  | item :: items => print item :: printItems items

def printFields : List (String × Json) → List String
  | [] => []
  | (name, value) :: fields => (printString name ++ ": " ++ print value) :: printFields fields

end

/-- A line break and the indentation of a level. -/
def newLine (level : Nat) : String := "\n" ++ copies level "  "

mutual

/-- A value over several lines, the first of which stands at `level`. -/
def printIndentedAt (level : Nat) : Json → String
  | arr items =>
    if items.isEmpty then "[]"
    else "[" ++ newLine (level + 1) ++
      join ("," ++ newLine (level + 1)) (printIndentedItems (level + 1) items) ++ newLine level ++ "]"
  | obj fields =>
    if fields.isEmpty then "\x7b\x7d"
    else "\x7b" ++ newLine (level + 1) ++
      join ("," ++ newLine (level + 1)) (printIndentedFields (level + 1) fields) ++
        newLine level ++ "\x7d"
  | null => "null"
  | bool b => if b then "true" else "false"
  | int n => toString n
  | float x => DecimalLayout.document.text x
  | str s => printString s

def printIndentedItems (level : Nat) : List Json → List String
  | [] => []
  | item :: items => printIndentedAt level item :: printIndentedItems level items

def printIndentedFields (level : Nat) : List (String × Json) → List String
  | [] => []
  | (name, value) :: fields =>
    (printString name ++ ": " ++ printIndentedAt level value) :: printIndentedFields level fields

end

/-- A value over several lines. -/
def printIndented (value : Json) : String := printIndentedAt 0 value

end CodeReview.Json
