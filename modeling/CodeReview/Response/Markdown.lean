import CodeReview.Response.Bullet
import CodeReview.Review.Category

/-!
# Reviews in running text

A review as sections under `##` headings: one for each category, whose bullets stand under `###`
headings with the path of a file, and one for general comments. `read?` gives it the shape of a
response in JSON.

A heading stands on a line of its own. The name of a section counts in capitals and small letters;
letters that only resemble those of a name are taken for a heading but name no section, which is a
failure.
-/

namespace CodeReview.Response.Markdown

open Scan Text

/-- What a section holds. -/
inductive Section
  | issues (category : Category)
  | comments
  deriving DecidableEq, Repr

namespace Section

/-- The names of the sections. -/
def names : List (String × Section) :=
  [("errors", issues .errors), ("improvements", issues .improvements),
   ("things done right", issues .thingsDoneRight), ("general comments", comments)]

/-- The field of a response that holds general comments. -/
def commentsKey : String := "generalComments"

/-- The section that a heading names. -/
def ofHeading (heading : List Char) : Except Failure Section :=
  let name := String.ofList (lower heading)
  match names.lookup name with
  | some found => .ok found
  | none => .error (.noSuchKey name)

end Section

/-! ## Headings -/

/-- The text of a heading of a section: two hashes, a name, and perhaps a colon. -/
def heading? (line : List Char) : Option (List Char) := do
  let rest ← word? "##" line
  guard (rest.head? != some '#')
  let rest := rest.dropWhile isGap
  let (name, rest) ← Section.names.findSome? fun (known, _) =>
    (wordIgnoringCase? known rest).map fun after => (rest.take known.length, after)
  let rest := rest.dropWhile isGap
  let rest := ((char? ':' rest).getD rest).dropWhile isGap
  guard rest.isEmpty
  return name

/-- A character that sets off the path in a heading. -/
def isMark (c : Char) : Bool := c == '\x60' || c == '*'

/-- The path in a heading of a file. -/
def fileHeading? (line : List Char) : Option (List Char) :=
  match word? "###" line with
  | some (c :: rest) =>
    if isGap c && !rest.isEmpty then some (Chars.trimBoth isMark (Chars.trim rest)) else none
  | _ => none

/-- Lines parted at headings: the lines before the first, and each heading with its lines. -/
def partAt (heading? : List Char → Option (List Char)) (lines : List (List Char)) :
    List (List Char) × List (List Char × List (List Char)) :=
  lines.foldr (fun line (front, parts) =>
    match heading? line with
    | some heading => ([], (heading, front) :: parts)
    | none => (line :: front, parts)) ([], [])

/-! ## Sections -/

/-- The group of the bullets that stand under no path. -/
def generalGroup : String := "general"

/-- The issues of a section by group; groups come in the order of their first headings. -/
def issuesByGroup (body : List Char) : Except Failure (Keyed (List Json)) := do
  let (front, parts) := partAt fileHeading? (Chars.lines body)
  let bullets := ((generalGroup.toList, front) :: parts).foldl
    (fun (groups : Keyed (List (List Char))) (path, lines) =>
      groups.extend (String.ofList path) (Bullet.items lines)) []
  let groups ← bullets.mapM fun (path, items) => do
    let issues ← items.mapM Bullet.issue
    return (path, issues.map Json.obj)
  return groups.filter (!·.2.isEmpty)

/-- The comments of a section: its bullets, or else its lines. -/
def commentsIn (body : List Char) : List String :=
  let lines := Chars.lines body
  let bullets := (Bullet.items lines).map Chars.squeeze
  let found := if bullets.isEmpty then (lines.map Chars.trim).filter (!·.isEmpty) else bullets
  found.map String.ofList

/-- A review that has been read up to some section. -/
structure Review where
  issues : ByCategory (Keyed (List Json)) := .const []
  comments : List String := []

namespace Review

/-- Adds a section. -/
def add (review : Review) (heading body : List Char) : Except Failure Review := do
  match ← Section.ofHeading heading with
  | .comments => return { review with comments := review.comments ++ commentsIn body }
  | .issues category =>
    let groups ← issuesByGroup body
    return { review with
      issues := review.issues.modify category fun before =>
        groups.foldl (fun all (path, issues) => all.extend path issues) before }

/-- A review as the fields of a response. -/
def fields (review : Review) : Fields :=
  Category.all.map (fun category =>
    (category.key, .obj ((review.issues.get category).map fun (path, issues) =>
      (path, .arr issues)))) ++
  [(Section.commentsKey, .arr (review.comments.map .str))]

end Review

/-- Reads a text as a review, if it has a heading of a section. -/
def read? (text : List Char) : Except Failure (Option Fields) := do
  match (partAt heading? (Chars.splitOn '\n' text)).2 with
  | [] => return none
  | parts =>
    let review ← parts.foldlM (fun (review : Review) (heading, lines) =>
      review.add heading (Chars.join ['\n'] lines)) {}
    return some review.fields

end CodeReview.Response.Markdown
