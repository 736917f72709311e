import CodeReview.Json.Display
import CodeReview.Number.Reading
import CodeReview.Response.Reading
import CodeReview.Review.Outcome

/-!
# Issues in a response

The fields of a response as issues by category. A category may come as a list, as issues by path,
or as a single issue; an issue may be a mapping under several names for each of its fields, or just
a text. Whatever else stands in a response is passed over.
-/

namespace CodeReview.Response

open Number Text

/-! ## Single issues -/

/-- The fields that may hold the title of an issue. -/
def titleKeys : List String := ["title", "description", "message", "issue"]

/-- The fields that may hold its first line. -/
def lineStartKeys : List String := ["lineStart", "line_start", "lineNumber", "line"]

/-- The fields that may hold its last line. -/
def lineEndKeys : List String := ["lineEnd", "line_end"]

/-- The fields that may name another file. -/
def pathKeys : List String := ["filePath", "file_path", "file"]

/-- The fields that may hold the code it is about. -/
def snippetKeys : List String := ["codeSnippet", "code_snippet", "codeContext"]

/-- The field that holds its severity. -/
def severityKey : String := "severity"

/-- The whole number in a value: texts are read, and fractions dropped. An infinite number has
none, which is a failure. -/
def wholeNumber? : Json → Except Failure (Option Int)
  | .int n => .ok (some n)
  | .float x =>
    match x.toInt? with
    | some n => .ok (some n)
    | none => if x.isInfinite then .error .infiniteWhole else .ok none
  | .str s => .ok (readInteger s.toList).toOption
  | _ => .ok none

/-- The number of a line under one of several names. -/
def lineOf? (fields : Fields) (names : List String) : Except Failure (Option Int) :=
  match fields.firstOf? names with
  | some value => wholeNumber? value
  | none => .ok none

/-- The issue that a mapping describes, of the file at `path` unless it names another. -/
def issueOf (path : String) (fields : Fields) : Except Failure Issue := do
  let lineStart ← lineOf? fields lineStartKeys
  let lineEnd ← lineOf? fields lineEndKeys
  let named := (fields.firstOf? pathKeys).filter Json.isTruthy
  return {
    title := match fields.firstOf? titleKeys with
      | some title => trim title.asText
      | none => "No description provided"
    path := match named with
      | some other => Path.normalize other.asText
      | none => path
    lineStart, lineEnd
    severity := Severity.ofJson ((Keyed.get? fields severityKey).getD .null)
    snippet := (fields.firstOf? snippetKeys).map Json.asText }

/-- The issue that a value describes, if it is a mapping or a text that is not blank. -/
def issue? (path : String) : Json → Except Failure (Option Issue)
  | .obj fields => do return some (← issueOf path fields)
  | .str s => .ok (if isBlankText s then none else some { title := trim s, path })
  | _ => .ok none

/-- The issues that the items of a list describe. -/
def issuesOfItems (path : String) (items : List Json) : Except Failure (List Issue) := do
  let issues ← items.mapM (issue? path)
  return issues.filterMap id

/-- The issues that a value describes: those of a list, or just one. -/
def issuesOfValue (path : String) : Json → Except Failure (List Issue)
  | .arr items => issuesOfItems path items
  | value => issuesOfItems path [value]

/-! ## Sources of issues -/

/-- The shapes in which a category may come. -/
inductive IssueSource
  | list (items : List Json)
  | byPath (groups : Fields)
  | single (item : Json)

namespace IssueSource

/-- Whether a mapping describes an issue: one of the fields for a title holds a text. -/
def describesIssue (fields : Fields) : Bool :=
  titleKeys.any fun key => ((Keyed.get? fields key).bind Json.str?).isSome

/-- The shape of a value, if it is one of them. -/
def ofJson? : Json → Option IssueSource
  | .arr items => some (list items)
  | .obj fields => some (if describesIssue fields then single (.obj fields) else byPath fields)
  | .str s => if isBlankText s then none else some (single (.str (trim s)))
  | _ => none

/-- The path that a group of issues belongs to. -/
def groupPath (path group : String) : String :=
  let key := Path.normalize group
  if key.isEmpty || key == Markdown.generalGroup then path else key

/-- The issues, of the file at `path` unless they name another. -/
def issues (path : String) : IssueSource → Except Failure (List Issue)
  | list items => issuesOfItems path items
  | single item => issuesOfItems path [item]
  | byPath groups => do
    let found ← groups.mapM fun (group, value) => issuesOfValue (groupPath path group) value
    return found.flatten

end IssueSource

/-! ## Whole responses -/

/-- Other names for the categories. -/
def categoryNames : List (String × Category) :=
  Category.all.map (fun category => (category.key, category)) ++
    [("things_done_right", .thingsDoneRight), ("thingsdoneright", .thingsDoneRight)]

/-- The category that a field names, as it is written or in small letters. -/
def categoryOf? (key : String) : Option Category :=
  (categoryNames.lookup key).or (categoryNames.lookup (lowercase key))

/-- Where the issues of a field go, if it holds any: to a category, or to the issues without one. -/
def slotOf? (key : String) : Option (Option Category) :=
  match categoryOf? key with
  | some category => some (some category)
  | none => if key == unsortedKey then some none else none

/-- The issues of a response. -/
structure Sorted where
  categories : ByCategory (List Issue) := .const []
  unsorted : List Issue := []

namespace Sorted

def get (sorted : Sorted) : Option Category → List Issue
  | some category => sorted.categories.get category
  | none => sorted.unsorted

/-- Adds issues to a category, or to those without one. -/
def extend (sorted : Sorted) (slot : Option Category) (issues : List Issue) : Sorted :=
  match slot with
  | some category =>
    { sorted with categories := sorted.categories.modify category (· ++ issues) }
  | none => { sorted with unsorted := sorted.unsorted ++ issues }

theorem get_extend (sorted : Sorted) (slot other : Option Category) (issues : List Issue) :
    (sorted.extend slot issues).get other =
      if other = slot then sorted.get other ++ issues else sorted.get other := by
  cases slot <;> cases other <;> simp [extend, get, ByCategory.get_modify]

/-- Adds the issues of one field. -/
def addField (sorted : Sorted) (path : String) (field : String × Json) : Except Failure Sorted := do
  match IssueSource.ofJson? field.2, slotOf? field.1 with
  | some source, some slot => return sorted.extend slot (← source.issues path)
  | _, _ => return sorted

end Sorted

/-- The issues of a response about the file at `path`. -/
def categorize (fields : Fields) (path : String) : Except Failure Sorted :=
  fields.foldlM (Sorted.addField · (Path.normalize path)) {}

/-- The general comments of a response, without blank ones. -/
def generalComments (fields : Fields) : List String :=
  match Keyed.get? fields Markdown.Section.commentsKey with
  | some (.str s) => if isBlankText s then [] else [trim s]
  | some (.arr items) =>
    items.filterMap fun
      | .null => none
      | item => nonEmpty? (trim item.asText)
  | _ => []

/-- The findings of a response with a summary behind it. A response without a summary may have one
among its fields. -/
def findings (fields : Fields) (summary path : String) : Except Failure Findings := do
  let sorted ← categorize fields path
  let summary :=
    if summary.isEmpty then trim (((Keyed.get? fields "summary").bind Json.str?).getD "") else summary
  return {
    categories := sorted.categories
    unsorted := sorted.unsorted
    summary := nonEmpty? summary
    comments := generalComments fields
    parsed := some fields }

/-- The outcome of a response about the file at `path`. A response that has no structure still
counts as a review, with its summary and no issues. -/
def outcome (response path : String) : Except Failure Outcome := do
  let fenced := Fenced.split response.toList
  let summary := String.ofList fenced.summary
  match read fenced.body with
  | .ok fields => return ⟨path, .reviewed (← findings fields summary path)⟩
  | .error failure =>
    if failure.kind = .parse then return ⟨path, .reviewed { summary := nonEmpty? summary }⟩
    else throw failure

end CodeReview.Response
