import CodeReview.Review.View

/-!
# Pieces on a terminal

Console output as plain lines: marks of style are left out, the cells of a table stand below one
another, and a panel is its title above its body.
-/

namespace CodeReview

open Text

namespace Terminal

/-- Whether a character may start a mark of style. -/
def startsMark (c : Char) : Bool := c.isLower || c == '/' || c == '#' || c == '@'

/-- The text behind a mark of style, if one stands in front. -/
def behindMark? : List Char → Option (List Char)
  | '[' :: c :: cs =>
    if startsMark c then
      match cs.dropWhile fun c => c != ']' && c != '[' with
      | ']' :: rest => some rest
      | _ => none
    else none
  | _ => none

/-- Leaves out the marks of style; `fuel` is at least the length of the text. -/
def unmarkedWithin : (fuel : Nat) → List Char → List Char
  | 0, cs => cs
  | _ + 1, [] => []
  | fuel + 1, c :: cs =>
    match behindMark? (c :: cs) with
    | some rest => unmarkedWithin fuel rest
    | none => c :: unmarkedWithin fuel cs

/-- A text without its marks of style. -/
def unmarked (text : String) : String := onChars (fun cs => unmarkedWithin cs.length cs) text

/-- A cell, filled with blanks up to a width. -/
def padded (width : Nat) (cell : String) : String := cell ++ copies (width - cell.length) " "

/-- The width of a column: that of its widest cell. -/
def width (cells : List String) : Nat := (cells.map String.length).foldl max 0

/-- Columns of cells as lines; a column that is too short has empty cells at the end. -/
def lines (columns : List (List String)) : List String :=
  let height := (columns.map List.length).foldl max 0
  (List.range height).map fun row =>
    trimOf (· == ' ') (join "  " (columns.map fun cells => padded (width cells) (cells.getD row "")))

end Terminal

/-- A piece as plain text. -/
def Piece.text : Piece → String
  | markup text => Terminal.unmarked text
  | table title columns =>
    let cells := columns.map fun (heading, cells) => heading :: cells.map Terminal.unmarked
    join "\n" (title :: Terminal.lines cells)
  | panel title body _ => title ++ "\n" ++ body

end CodeReview
