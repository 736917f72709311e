import CodeReview.Text.Basic

/-!
# Bulleted replies

A reply in bullets, one comment a bullet. A line without a bullet goes on with the comment above it,
and a blank line ends a comment.
-/

namespace CodeReview.Bullets

open Text

/-- The marks of a bullet. -/
def isMark (c : Char) : Bool := c == '-' || c == '•' || c == '*'

/-- The comments of lines that are trimmed; `current` holds the lines of the comment that is being
read. -/
def comments : (current : List (List Char)) → List (List Char) → List (List Char)
  | current, [] => finished current
  | current, [] :: lines => finished current ++ comments [] lines
  | current, (c :: cs) :: lines =>
    if isMark c then finished current ++ comments [Chars.trim cs] lines
    else comments (current ++ [c :: cs]) lines
where
  /-- The comment that lines make, if there are any. -/
  finished (current : List (List Char)) : List (List Char) :=
    if current.isEmpty then [] else [Chars.join [' '] current]

/-- The comments in a reply; empty ones are dropped. -/
def parse (reply : String) : List String :=
  let lines := (Chars.lines reply.toList).map Chars.trim
  ((comments [] lines).filter (!·.isEmpty)).map String.ofList

end CodeReview.Bullets
