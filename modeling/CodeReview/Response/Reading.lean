import CodeReview.Json.Reader
import CodeReview.Response.Braces
import CodeReview.Response.Markdown

/-!
# Reading responses

The fields of a response, by the first of three readings that finds any: the text as JSON, a span
between braces as JSON, the longest first, and running text.
-/

namespace CodeReview.Response

open Text

/-- The field that holds issues without a category. -/
def unsortedKey : String := "issues"

/-- The fields of a JSON text: those of an object, or the items of a list as issues without a
category. -/
def fieldsOfJson? (text : List Char) : Option Fields :=
  match Json.parseChars? text with
  | some (.obj fields) => some fields
  | some (.arr items) => some [(unsortedKey, .arr items)]
  | _ => none

/-- The fields in JSON somewhere in a text. -/
def jsonFields? (text : List Char) : Option Fields :=
  (fieldsOfJson? text).or ((Braces.longestFirst text).findSome? fieldsOfJson?)

/-- How much of a response a failure quotes. -/
def quotedLength : Nat := 80

/-- The fields of a response. -/
def read (response : List Char) : Except Failure Fields := do
  let text := Chars.trim response
  if text.isEmpty then throw .emptyResponse
  match jsonFields? text with
  | some fields => return fields
  | none =>
    match ← Markdown.read? text with
    | some fields => return fields
    | none => throw (.unreadableResponse (String.ofList (text.take quotedLength)))

end CodeReview.Response
