import CodeReview.Proofs.Response.Issues
import CodeReview.Proofs.Text.Chars
import CodeReview.Review.Report

/-!
# Reports as responses

A report is written with the fields of a response, so it can be read as one. What comes back:

* `issue?_toJson`: of an issue everything but white space around its title and the spelling of its
  path; an issue without a path is about the file or the group in which it stands.
* `itemsIn_fields`: of the fields of a report those of the categories hold issues, one after the other
  in the order of the report, and the other fields hold none.
* `reads_back`: so a report of well-written issues gives back its issues, category by category, and its
  comments without blank ones.
-/

namespace CodeReview

open Response Text

/-! ## One issue -/

namespace Severity

theorem ofWord_text (severity : Severity) : ofWord severity.text = severity := by
  cases severity <;> decide

end Severity

namespace Issue

/-- An issue as it comes back when it has been written where `path` counts for those without one. -/
def readBack (path : String) (issue : Issue) : Issue :=
  { issue with
    title := trim issue.title
    path := if issue.path.isEmpty then path else Path.normalize issue.path }

/-- A title without white space around it, and a path that is there and is a key. -/
structure WellWritten (issue : Issue) : Prop where
  title : trim issue.title = issue.title
  path_ne : issue.path ≠ ""
  path : Path.normalize issue.path = issue.path

instance (issue : Issue) : Decidable issue.WellWritten :=
  decidable_of_iff (trim issue.title = issue.title ∧ issue.path ≠ "" ∧
      Path.normalize issue.path = issue.path)
    ⟨fun ⟨title, path_ne, path⟩ => ⟨title, path_ne, path⟩,
      fun ⟨title, path_ne, path⟩ => ⟨title, path_ne, path⟩⟩

theorem WellWritten.readBack {issue : Issue} (h : issue.WellWritten) (path : String) :
    issue.readBack path = issue := by
  have hempty : issue.path.isEmpty = false := by simpa using h.path_ne
  rw [Issue.readBack, h.title, h.path, hempty]
  rfl

variable (path : String) (issue : Issue)

/-- The fields of a written issue. -/
def fields : Fields :=
  [("title", .str issue.title), ("filePath", .str issue.path),
    ("lineStart", .ofInt? issue.lineStart), ("lineEnd", .ofInt? issue.lineEnd),
    ("severity", .str issue.severity.text), ("codeSnippet", .ofText? issue.snippet)]

theorem toJson_eq : issue.toJson = .obj issue.fields := rfl

theorem lineStart_fields : lineOf? issue.fields lineStartKeys = .ok issue.lineStart := by
  obtain ⟨title, path, first, last, severity, snippet⟩ := issue
  cases first <;> rfl

theorem lineEnd_fields : lineOf? issue.fields lineEndKeys = .ok issue.lineEnd := by
  obtain ⟨title, path, first, last, severity, snippet⟩ := issue
  cases last <;> rfl

theorem snippet_fields :
    (issue.fields.firstOf? snippetKeys).map Json.asText = issue.snippet := by
  obtain ⟨title, path, first, last, severity, snippet⟩ := issue
  cases snippet <;> rfl

/-- Each part of a written issue stands under the first of the names that a reader looks for, and none
of the other names is there. -/
theorem issue?_toJson : issue? path issue.toJson = .ok (some (issue.readBack path)) := by
  have htitle : issue.fields.firstOf? titleKeys = some (.str issue.title) := rfl
  have hpath : issue.fields.firstOf? pathKeys = some (.str issue.path) := rfl
  have hseverity : Keyed.get? issue.fields severityKey = some (.str issue.severity.text) := rfl
  rw [toJson_eq, issue?, issueOf, lineStart_fields, lineEnd_fields, htitle, hpath, hseverity,
    snippet_fields]
  dsimp only [bind, Except.bind, pure, Except.pure, Option.getD_some, Severity.ofJson, Json.asText]
  rw [Severity.ofWord_text, readBack, Option.filter_some, Json.isTruthy]
  cases issue.path.isEmpty <;> rfl

end Issue

theorem Response.mapM_issue?_toJson (found : List (String × Issue)) :
    (found.map fun (path, issue) => (path, issue.toJson)).mapM (fun (path, item) => issue? path item) =
      .ok (found.map fun (path, issue) => some (issue.readBack path)) := by
  refine mapM_eq_ok_iff.2 (List.forall₂_map_left_iff.2 (List.forall₂_map_right_iff.2 ?_))
  exact List.forall₂_same.2 fun entry _ => Issue.issue?_toJson entry.1 entry.2

/-- The issues of written ones, each read where a path counts for those without one. -/
theorem Response.issuesAt_toJson (found : List (String × Issue)) :
    issuesAt (found.map fun (path, issue) => (path, issue.toJson)) =
      .ok (found.map fun (path, issue) => issue.readBack path) := by
  rw [issuesAt, Response.mapM_issue?_toJson]
  simp [bind, Except.bind, pure, Except.pure, List.filterMap_map]

/-! ## Whole reports -/

namespace Response

theorem slotOf?_key (category : Category) : slotOf? category.key = some (some category) := by
  cases category <;> decide

/-- The fields of a report beside the categories. -/
theorem slotOf?_eq_none : ∀ key ∈ ["generalComments", "files", "summaries", "folderSummaries",
    "rootSummary"], slotOf? key = none := by
  decide

/-- The issues of a response are found if those of all its items are. -/
theorem succeeds_categorize {fields : Fields} {path : String}
    (h : ∀ slot, Succeeds (issuesAt (itemsIn fields path slot))) : Succeeds (categorize fields path) := by
  refine Succeeds.foldlM (fun sorted field hfield => succeeds_addField_iff.2 fun slot => ?_) {}
  refine succeeds_issuesAt_iff.2 fun item hitem => ?_
  exact succeeds_issuesAt_iff.1 (h slot) item (List.mem_flatMap.2 ⟨field, hfield, hitem⟩)

end Response

namespace Report

/-- The groups of a category as they are written. -/
def written (groups : Keyed (List Issue)) : Fields :=
  groups.map fun (path, issues) => (path, .arr (issues.map Issue.toJson))

/-- Groups are lists, so none of them is the title of an issue. -/
theorem describesIssue_written (groups : Keyed (List Issue)) :
    IssueSource.describesIssue (written groups) = false := by
  refine List.any_eq_false.2 fun key _ => ?_
  cases hvalue : Keyed.get? (written groups) key with
  | none => simp
  | some value =>
    obtain ⟨before, after, heq, -⟩ := List.lookup_eq_some_iff.1 hvalue
    have hmem : (key, value) ∈ written groups := heq ▸ by simp
    obtain ⟨group, -, hgroup⟩ := List.mem_map.1 hmem
    obtain rfl := (Prod.mk.inj hgroup).2
    simp [Json.str?]

/-- The issues of a category in the order of the report, each with the path that counts for those
without one: that of its group, or `path` for a group without one. -/
def grouped (path : String) (groups : Keyed (List Issue)) : List (String × Issue) :=
  groups.flatMap fun (group, issues) => issues.map (IssueSource.groupPath path group, ·)

theorem items_written (path : String) (groups : Keyed (List Issue)) :
    ((IssueSource.ofJson? (.obj (written groups))).map (·.items path)).getD [] =
      (grouped path groups).map fun (path, issue) => (path, issue.toJson) := by
  rw [IssueSource.ofJson?, describesIssue_written, if_neg Bool.false_ne_true, Option.map_some,
    Option.getD_some, IssueSource.items, written, List.flatMap_map, grouped, List.map_flatMap]
  simp only [itemsOf, List.map_map, Function.comp_def]

variable (report : Report) (path : String)

/-- The categories hold the issues of a report; its other fields hold none. -/
theorem itemsIn_fields (slot : Option Category) :
    itemsIn report.fields path slot = match slot with
      | some category => (grouped (Path.normalize path) (report.issues.get category)).map
          fun (path, issue) => (path, issue.toJson)
      | none => [] := by
  have hother (key : String) (hkey : slotOf? key = none) (value : Json) :
      fieldItems (Path.normalize path) slot (key, value) = [] := by
    rw [fieldItems, hkey, if_neg (Option.some_ne_none slot).symm]
  have hcategory (category : Category) : fieldItems (Path.normalize path) slot
      (category.key, .obj (written (report.issues.get category))) =
        if slot = some category then
          (grouped (Path.normalize path) (report.issues.get category)).map
            fun (path, issue) => (path, issue.toJson)
        else [] := by
    rw [fieldItems, slotOf?_key, items_written]
    by_cases hslot : slot = some category <;> simp [hslot, eq_comm]
  have hall : itemsIn report.fields path slot =
      Category.all.flatMap fun category => fieldItems (Path.normalize path) slot
        (category.key, .obj (written (report.issues.get category))) := by
    rw [itemsIn, fields, List.flatMap_append, List.flatMap_map]
    simp only [List.flatMap_cons, List.flatMap_nil]
    rw [hother _ (slotOf?_eq_none _ (by decide)), hother _ (slotOf?_eq_none _ (by decide)),
      hother _ (slotOf?_eq_none _ (by decide)), hother _ (slotOf?_eq_none _ (by decide)),
      hother _ (slotOf?_eq_none _ (by decide))]
    exact List.append_nil _
  rw [hall]
  simp only [hcategory, Category.all, List.flatMap_cons, List.flatMap_nil]
  cases slot with
  | none => simp
  | some category => cases category <;> simp

/-- A report that is read as a response about a file has no issues without a category, and in each
category those of the report in their order. -/
theorem categorize_fields : ∃ sorted, categorize report.fields path = .ok sorted ∧
    sorted.unsorted = [] ∧ ∀ category, sorted.categories.get category =
      (grouped (Path.normalize path) (report.issues.get category)).map
        fun (path, issue) => issue.readBack path := by
  have hissues (slot : Option Category) : issuesAt (itemsIn report.fields path slot) =
      .ok (match slot with
        | some category => (grouped (Path.normalize path) (report.issues.get category)).map
            fun (path, issue) => issue.readBack path
        | none => []) := by
    rw [itemsIn_fields]
    cases slot with
    | none => rfl
    | some category => exact issuesAt_toJson _
  obtain ⟨sorted, hsorted⟩ := succeeds_categorize fun slot => ⟨_, hissues slot⟩
  have hget (slot : Option Category) :=
    Except.ok.inj ((issues_of_categorize hsorted slot).symm.trans (hissues slot))
  exact ⟨sorted, hsorted, hget none, fun category => hget (some category)⟩

theorem generalComments_fields :
    generalComments report.fields = (report.comments.filter (!isBlankText ·)).map trim := by
  have hget : Keyed.get? report.fields Markdown.Section.commentsKey =
      some (.arr (report.comments.map .str)) := rfl
  rw [generalComments, hget]
  dsimp only
  induction report.comments with
  | nil => rfl
  | cons comment comments ih =>
    have hempty : (trim comment).isEmpty = isBlankText comment := by
      rw [Bool.eq_iff_iff, String.isEmpty_iff, trim, onChars, isBlankText, ← Chars.trim_eq_nil_iff]
      simp
    rw [List.map_cons, List.filterMap_cons, ih, List.filter_cons]
    dsimp only [Json.asText]
    rw [nonEmpty?, hempty]
    cases isBlankText comment <;> rfl

/-- A report of well-written issues that is read as a response gives back its issues and comments. -/
theorem reads_back (h : ∀ category, ∀ group ∈ report.issues.get category, ∀ issue ∈ group.2,
    issue.WellWritten) :
    (∃ sorted, categorize report.fields path = .ok sorted ∧ sorted.unsorted = [] ∧
      ∀ category, sorted.categories.get category = (report.issues.get category).flatMap (·.2)) ∧
    generalComments report.fields = (report.comments.filter (!isBlankText ·)).map trim := by
  obtain ⟨sorted, hsorted, hunsorted, hcategories⟩ := report.categorize_fields path
  refine ⟨⟨sorted, hsorted, hunsorted, fun category => ?_⟩, report.generalComments_fields⟩
  rw [hcategories, grouped, List.map_flatMap]
  refine List.flatMap_congr fun group hgroup => ?_
  rw [List.map_map]
  refine (List.map_congr_left fun issue hissue => ?_).trans (List.map_id group.2)
  exact (h category group hgroup issue hissue).readBack _

/-- Two issues of one file, the first of them in a group that has the name of a field of issues, and a
blank comment. -/
def twoIssues : Report where
  issues :=
    { errors := [("title", [{ title := "x", path := "lib/a.py", lineStart := some 0, snippet := some "" }]),
        ("lib/a.py", [{ title := "", path := "lib/a.py", severity := .error }])]
      improvements := [("lib/a.py", [])]
      thingsDoneRight := [] }
  comments := [" fine ", "\t"]
  files := ["lib/a.py"]

theorem reads_back_two_issues :
    (∀ category, ∀ group ∈ twoIssues.issues.get category, ∀ issue ∈ group.2, issue.WellWritten) ∧
    (∃ sorted, categorize twoIssues.fields "other.py" = .ok sorted ∧ sorted.unsorted = [] ∧
      ∀ category, sorted.categories.get category =
        (twoIssues.issues.get category).flatMap (·.2)) ∧
    generalComments twoIssues.fields = ["fine"] := by
  have hwell : ∀ category, ∀ group ∈ twoIssues.issues.get category, ∀ issue ∈ group.2,
      issue.WellWritten := by
    intro category
    cases category <;> decide
  obtain ⟨hissues, hcomments⟩ := reads_back twoIssues "other.py" hwell
  exact ⟨hwell, hissues, hcomments.trans (by decide)⟩

end Report

end CodeReview
