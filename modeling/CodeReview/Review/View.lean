import CodeReview.FileSystem.Basic
import CodeReview.Json.Printer
import CodeReview.Review.Report

/-!
# Showing reports

A report on a console, as the pieces that are handed to it, and in a file.
-/

namespace CodeReview

open Text

/-- A piece of console output. -/
inductive Piece
  /-- Text with style marks in brackets. -/
  | markup (text : String)
  /-- A table by columns, each with its heading. -/
  | table (title : String) (columns : List (String × List String))
  | panel (title body border : String)
  deriving DecidableEq, Repr

namespace Severity

/-- The style in which a severity is shown. -/
def style : Severity → String
  | error => "bold red"
  | critical => "red"
  | high => "yellow"
  | medium => "cyan"
  | low => "dim"

end Severity

namespace Issue

/-- The lines of an issue. -/
def location (lineStart lineEnd : Option Int) : String :=
  match lineStart with
  | none => ""
  | some first =>
    match lineEnd with
    | none => s!"L{first}"
    | some last => if last = first then s!"L{first}" else s!"L{first}-{last}"

end Issue

namespace Report

/-- How many issues each file has. -/
def summaryTable (report : Report) : Piece :=
  let counts (category : Category) : List String :=
    report.files.map fun path => toString (report.issuesIn category path).length
  .table "Review Summary"
    [("File", report.files), ("Errors", counts .errors), ("Improvements", counts .improvements),
     ("Done Right", counts .thingsDoneRight)]

/-- The errors, if there are any. -/
def errorsTable? (report : Report) : Option Piece :=
  let rows := report.issues.errors.flatMap fun (path, issues) => issues.map (path, ·)
  if rows.isEmpty then none
  else
    let severity (issue : Issue) : String :=
      let style := issue.severity.style
      "[" ++ style ++ "]" ++ issue.severity.text ++ "[/" ++ style ++ "]"
    some (.table "Errors"
      [("File", rows.map (·.1)),
       ("Where", rows.map fun (_, issue) => Issue.location issue.lineStart issue.lineEnd),
       ("Severity", rows.map fun (_, issue) => severity issue),
       ("Issue", rows.map fun (_, issue) => issue.title)])

/-- The line of totals. -/
def totalsLine (report : Report) : String :=
  s!"\n[bold]{report.files.length}[/bold] files reviewed: " ++
    s!"[red]{report.total .errors} errors[/red], " ++
    s!"[yellow]{report.total .improvements} improvements[/yellow], " ++
    s!"[green]{report.total .thingsDoneRight} things done right[/green]"

/-- The general comments, if there are any. -/
def commentsPanel? (report : Report) : Option Piece :=
  if report.comments.isEmpty then none
  else some (.panel "Overall Assessment" (join "\n" (report.comments.map ("• " ++ ·))) "blue")

/-- The summary of the repository, if there is one. -/
def summaryPanel? (report : Report) : Option Piece :=
  (report.rootSummary.bind nonEmpty?).map fun summary => .panel "Repository Summary" summary "green"

/-- A report on a console. -/
def view (report : Report) (details : Bool := true) : List Piece :=
  [report.summaryTable, .markup report.totalsLine] ++
    (if details then report.errorsTable?.toList else []) ++
    report.commentsPanel?.toList ++ report.summaryPanel?.toList

/-- A report as text in a file. -/
def document (report : Report) : String := (Json.obj report.fields).printIndented

/-- Writes a report to a file, in folders that are made as needed. -/
def save (report : Report) (fs : FileSystem) (path : String) : Except Failure FileSystem :=
  fs.writeInto path report.document

end Report

end CodeReview
