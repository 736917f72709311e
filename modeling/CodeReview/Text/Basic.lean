import CodeReview.Text.Case
import CodeReview.Text.Chars

/-!
# Operations on text

The operations of `CodeReview.Chars` and the case maps, on `String`. Lengths and cuts count code
points.
-/

namespace CodeReview.Text

/-- Applies an operation on characters to a text. -/
def onChars (f : List Char → List Char) (s : String) : String := String.ofList (f s.toList)

/-- Drops white space from both ends. -/
def trim (s : String) : String := onChars Chars.trim s

/-- Drops the characters that satisfy `p` from both ends. -/
def trimOf (p : Char → Bool) (s : String) : String := onChars (Chars.trimBoth p) s

/-- Text in small letters. -/
def lowercase (s : String) : String := onChars lower s

/-- Text in capitals. -/
def uppercase (s : String) : String := onChars upper s

/-- Whether there is nothing but white space. -/
def isBlankText (s : String) : Bool := Chars.isBlankText s.toList

/-- The parts between separators. -/
def splitOn (separator : Char) (s : String) : List String :=
  (Chars.splitOn separator s.toList).map String.ofList

/-- The lines without their ends. -/
def lines (s : String) : List String := (Chars.lines s.toList).map String.ofList

/-- The maximal runs of characters that are not white space. -/
def words (s : String) : List String := (Chars.words s.toList).map String.ofList

/-- The words with one space between each two. -/
def squeeze (s : String) : String := onChars Chars.squeeze s

/-- The parts with `separator` between each two. -/
def join (separator : String) (parts : List String) : String := String.intercalate separator parts

/-- Whether the text starts with `start`. -/
def startsWith (start s : String) : Bool := start.toList.isPrefixOf s.toList

/-- Whether the text ends with `ending`. -/
def endsWith (ending s : String) : Bool := ending.toList.isSuffixOf s.toList

/-- Whether `part` occurs in the text. -/
def hasPart (part s : String) : Bool := Chars.hasPart part.toList s.toList

/-- The first `n` characters. -/
def take (n : Nat) (s : String) : String := onChars (List.take n) s

/-- `n` copies of the text. -/
def copies (n : Nat) (s : String) : String := String.join (List.replicate n s)

/-- Every occurrence of one character replaced by another. -/
def replaceChar (old new : Char) (s : String) : String :=
  onChars (List.map fun c => if c == old then new else c) s

/-- The text, unless it is empty. -/
def nonEmpty? (s : String) : Option String := if s.isEmpty then none else some s

end CodeReview.Text
