import CodeReview.Text.Scan

/-!
# The fence around a response

A response is a JSON document between fences with a summary behind it. `split` takes the two apart.
Text without a fence, or whose fence holds something other than JSON, is all document.
-/

namespace CodeReview.Response

open Scan Text

/-- A response in its two parts. -/
structure Fenced where
  body : List Char
  summary : List Char
  deriving DecidableEq, Repr

/-- What opens and closes a fence. -/
def fence : List Char := ['`', '`', '`']

namespace Fenced

/-- The tag of a fence that says that it holds JSON. -/
def tag? (cs : List Char) : Option (List Char) := (word? "json" cs).or (word? "JSON" cs)

/-- The text behind the opening of a fence, from its tag on, and whether there is a tag. A line
break at the end of the opening belongs to it. -/
def opening (cs : List Char) : Bool × List Char :=
  let cs := cs.dropWhile isGap
  let (tagged, cs) := match tag? cs with | some rest => (true, rest) | none => (false, cs)
  let cs := cs.dropWhile isGap
  (tagged, (char? '\n' cs).getD cs)

/-- Whether text starts like a JSON document. -/
def startsDocument (cs : List Char) : Bool :=
  match blanks cs with
  | c :: _ => c == '\x7b' || c == '['
  | [] => false

/-- A character that decorates a heading. -/
def isDecoration (c : Char) : Bool := c == '*' || isBlank c

/-- Drops a label in front of a summary: the word, decorated, and a colon or the end of its line. -/
def dropLabel (cs : List Char) : List Char :=
  match wordIgnoringCase? "summary" (cs.dropWhile fun c => c == '#' || isDecoration c) with
  | none => cs
  | some rest =>
    if !atWordEnd rest then cs
    else
      let (between, after) := rest.span isDecoration
      match after with
      | ':' :: text => text.dropWhile isDecoration
      | _ => if between.contains '\n' then after else cs

/-- Takes a response apart. -/
def split (response : List Char) : Fenced :=
  let text := Chars.trim response
  match Chars.cut? fence text with
  | none => ⟨text, []⟩
  | some (_, behind) =>
    let (tagged, content) := opening behind
    if !tagged && !startsDocument content then ⟨text, []⟩
    else match Chars.cut? fence content with
      | none => ⟨Chars.trim content, []⟩
      | some (body, summary) => ⟨Chars.trim body, Chars.trim (dropLabel (Chars.trim summary))⟩

end Fenced

end CodeReview.Response
