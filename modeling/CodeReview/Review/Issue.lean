import CodeReview.Path.Basic
import CodeReview.Review.Category
import CodeReview.Review.Severity
import CodeReview.Text.Scan

/-!
# Issues

One remark about a file. An issue that came without a category is given one by its severity and the
words of its title (`Issue.category`).
-/

namespace CodeReview

open Scan

/-- One remark about a file. -/
structure Issue where
  title : String
  path : String
  lineStart : Option Int := none
  lineEnd : Option Int := none
  severity : Severity := .medium
  snippet : Option String := none
  deriving DecidableEq, Repr

namespace Issue

/-- Words of praise. -/
def praise : List String := ["good", "right", "well", "best practice"]

/-- A word of praise that stands by itself. -/
def praise? (before : Option Char) (cs : List Char) : Option (Unit × List Char) :=
  if atWordStart before then
    praise.findSome? fun word =>
      match wordIgnoringCase? word cs with
      | some rest => if atWordEnd rest then some ((), rest) else none
      | none => none
  else none

/-- The category of an issue that came without one: a grave one is an error, one with a word of
praise in its title was done right, and any other is an improvement. -/
def category (issue : Issue) : Category :=
  if issue.severity = .error then .errors
  else if (findFirst? praise? issue.title.toList).isSome then .thingsDoneRight
  else .improvements

/-- An issue as it is written to a report. -/
def toJson (issue : Issue) : Json :=
  .obj [("title", .str issue.title), ("filePath", .str issue.path),
    ("lineStart", .ofInt? issue.lineStart), ("lineEnd", .ofInt? issue.lineEnd),
    ("severity", .str issue.severity.text), ("codeSnippet", .ofText? issue.snippet)]

end Issue

end CodeReview
