import CodeReview.Proofs.Text.Chars
import CodeReview.Response.Issues

/-!
# Shapes of a category

The issues of a category may come as a list, as a group under the path of the file, as a general group,
and, if there is just one, by themselves (`Wraps`).

* `Wraps.exists_source`: each shape is read as the items in it, of the file that the review is about.
* `categorize_wraps`: so the shape makes no difference, whatever else stands in the response.
-/

namespace CodeReview.Response

open Text

/-! ## Shapes -/

/-- A value that is an issue by itself: a mapping with a text for a title, or a text that is not blank. -/
inductive IsElement : Json → Prop
  | mapping {fields : Fields} {key title : String} (hkey : key ∈ titleKeys)
      (htitle : Keyed.get? fields key = some (.str title)) : IsElement (.obj fields)
  | text {s : String} (h : ∃ c ∈ s.toList, isBlank c = false) : IsElement (.str s)

/-- The shapes in which items may come in a review of the file at a path. -/
inductive Wraps (path : String) : List Json → Json → Prop
  | list (items : List Json) : Wraps path items (.arr items)
  | byPath (items : List Json) : Wraps path items (.obj [(path, .arr items)])
  | general (items : List Json) : Wraps path items (.obj [("general", .arr items)])
  | unnamed (items : List Json) : Wraps path items (.obj [("", .arr items)])
  | element {item : Json} (h : IsElement item) : Wraps path [item] item
  | elementByPath {item : Json} (h : IsElement item) : Wraps path [item] (.obj [(path, item)])

/-! ## Single issues -/

section Elements

variable {path key s : String} {item other : Json}

theorem isBlankText_of_exists (h : ∃ c ∈ s.toList, isBlank c = false) : isBlankText s = false := by
  simpa [isBlankText, Chars.isBlankText] using h

/-- White space around a text makes no difference to the issue that it is. -/
theorem issue?_trim (path s : String) : issue? path (.str (trim s)) = issue? path (.str s) := by
  have hblank : isBlankText (trim s) = isBlankText s := by
    rw [isBlankText, trim, onChars, String.toList_ofList, Chars.isBlankText_trim, isBlankText]
  have htrim : trim (trim s) = trim s := by
    rw [trim, onChars, trim, onChars, String.toList_ofList, Chars.trim_trim]
  rw [issue?, issue?, hblank, htrim]

theorem firstOf?_single (key s : String) (names : List String) :
    Fields.firstOf? [(key, .str s)] names = if key ∈ names then some (.str s) else none := by
  induction names with
  | nil => rfl
  | cons name names ih =>
    rw [Fields.firstOf?, List.findSome?_cons, Keyed.get?_cons, ← Fields.firstOf?, ih]
    by_cases h : name = key
    · simp [h]
    · simp [h, Ne.symm h, Keyed.get?]

/-- A text under the name of a title is the issue that the text is by itself. -/
theorem issue?_titled (hkey : key ∈ titleKeys) (hs : isBlankText s = false) (path : String) :
    issue? path (.obj [(key, .str s)]) = issue? path (.str s) := by
  have hother : key ∉ lineStartKeys ∧ key ∉ lineEndKeys ∧ key ∉ pathKeys ∧ key ∉ snippetKeys ∧
      severityKey ≠ key := by
    revert key
    decide
  obtain ⟨hstart, hend, hpath, hsnippet, hseverity⟩ := hother
  simp only [issue?, issueOf, lineOf?, firstOf?_single, if_pos hkey, if_neg hstart, if_neg hend,
    if_neg hpath, if_neg hsnippet, Keyed.get?_cons, if_neg hseverity, hs]
  rfl

theorem issuesOfItems_congr (h : issue? path item = issue? path other) :
    issuesOfItems path [item] = issuesOfItems path [other] := by
  simp only [issuesOfItems, List.mapM_cons, h]

theorem issuesOfValue_of_isElement (h : IsElement item) :
    issuesOfValue path item = issuesOfItems path [item] := by
  cases h <;> rfl

end Elements

/-! ## Reading a shape -/

section Shapes

variable {path key : String} {items : List Json} {value item : Json}

theorem describesIssue_single (key : String) (value : Json) :
    IssueSource.describesIssue [(key, value)] = true ↔ key ∈ titleKeys ∧ value.str?.isSome = true := by
  rw [IssueSource.describesIssue, List.any_eq_true]
  constructor
  · rintro ⟨name, hname, htext⟩
    rw [Keyed.get?_cons] at htext
    split at htext
    · next heq => exact ⟨heq ▸ hname, htext⟩
    · cases htext
  · rintro ⟨hkey, htext⟩
    exact ⟨key, hkey, by rwa [Keyed.get?_cons, if_pos rfl]⟩

theorem ofJson?_group (group : String) (h : value.str? = none) :
    IssueSource.ofJson? (.obj [(group, value)]) = some (.byPath [(group, value)]) := by
  have hnot : ¬ IssueSource.describesIssue [(group, value)] = true := by
    simp [describesIssue_single, h]
  rw [IssueSource.ofJson?, if_neg hnot]

theorem issues_group (path group : String) (value : Json) :
    (IssueSource.byPath [(group, value)]).issues path =
      issuesOfValue (IssueSource.groupPath path group) value := by
  simp [IssueSource.issues]

/-- A group under the path of the file is one of the file, whether or not the path is a key. -/
theorem groupPath_normalize (path : String) :
    IssueSource.groupPath (Path.normalize path) path = Path.normalize path := by
  rw [IssueSource.groupPath]
  split <;> rfl

theorem ofJson?_element (h : IsElement item) : ∃ source, IssueSource.ofJson? item = some source ∧
    source.issues path = issuesOfItems path [item] := by
  cases h with
  | @mapping fields _ _ hkey htitle =>
    have hdescribes : IssueSource.describesIssue fields = true := by
      rw [IssueSource.describesIssue, List.any_eq_true]
      exact ⟨_, hkey, by rw [htitle]; rfl⟩
    exact ⟨.single (.obj fields), by rw [IssueSource.ofJson?, if_pos hdescribes], rfl⟩
  | text hs =>
    refine ⟨_, if_neg (by simp [isBlankText_of_exists hs]), ?_⟩
    exact issuesOfItems_congr (issue?_trim path _)

/-- One issue under the path of its file. The path may happen to be the name of a title, and a text
under it is read as an issue with that title. -/
theorem ofJson?_elementByPath (h : IsElement item) : ∃ source,
    IssueSource.ofJson? (.obj [(path, item)]) = some source ∧
      source.issues (Path.normalize path) = issuesOfItems (Path.normalize path) [item] := by
  by_cases hdescribes : IssueSource.describesIssue [(path, item)] = true
  · obtain ⟨hkey, htext⟩ := describesIssue_single path item |>.1 hdescribes
    cases h with
    | mapping => exact nomatch htext
    | text hs =>
      exact ⟨.single _, by rw [IssueSource.ofJson?, if_pos hdescribes],
        issuesOfItems_congr (issue?_titled hkey (isBlankText_of_exists hs) _)⟩
  · refine ⟨.byPath _, by rw [IssueSource.ofJson?, if_neg hdescribes], ?_⟩
    rw [issues_group, groupPath_normalize, issuesOfValue_of_isElement h]

/-- Each shape is read as the items in it. -/
theorem Wraps.exists_source (h : Wraps path items value) :
    ∃ source, IssueSource.ofJson? value = some source ∧
      source.issues (Path.normalize path) = issuesOfItems (Path.normalize path) items := by
  cases h with
  | list => exact ⟨.list items, rfl, rfl⟩
  | byPath =>
    refine ⟨_, ofJson?_group path rfl, ?_⟩
    rw [issues_group, groupPath_normalize, issuesOfValue]
  | general =>
    have hgeneral : IssueSource.groupPath (Path.normalize path) "general" = Path.normalize path := rfl
    refine ⟨_, ofJson?_group "general" rfl, ?_⟩
    rw [issues_group, hgeneral, issuesOfValue]
  | unnamed =>
    have hunnamed : IssueSource.groupPath (Path.normalize path) "" = Path.normalize path := rfl
    refine ⟨_, ofJson?_group "" rfl, ?_⟩
    rw [issues_group, hunnamed, issuesOfValue]
  | element helement => exact ofJson?_element helement
  | elementByPath helement => exact ofJson?_elementByPath helement

theorem Wraps.addField_eq (h : Wraps path items value) (sorted : Sorted) (key : String) :
    sorted.addField (Path.normalize path) (key, value) =
      sorted.addField (Path.normalize path) (key, .arr items) := by
  obtain ⟨source, hsource, hissues⟩ := h.exists_source
  have hlist : IssueSource.ofJson? (.arr items) = some (.list items) := rfl
  have hitems : (IssueSource.list items).issues (Path.normalize path) =
      issuesOfItems (Path.normalize path) items := rfl
  simp only [Sorted.addField, hsource, hlist]
  cases slotOf? key with
  | none => rfl
  | some slot => dsimp only; rw [hissues, hitems]

end Shapes

/-- The shape of a category makes no difference: any two shapes of the same items give the same issues, or
the same failure, under every key and whatever stands beside it in the response. -/
theorem categorize_wraps {path : String} {items : List Json} {value other : Json}
    (h : Wraps path items value) (hother : Wraps path items other) (key : String)
    (before after : Fields) : categorize (before ++ (key, value) :: after) path =
      categorize (before ++ (key, other) :: after) path := by
  simp only [categorize, List.foldlM_append, List.foldlM_cons, h.addField_eq, hother.addField_eq]

/-- A file whose path is the name of a title, and one issue under it. -/
theorem categorize_wraps_titled : IsElement (.str " leak ") ∧
    Wraps "title" [.str " leak "] (.obj [("title", .str " leak ")]) ∧
    Wraps "title" [.str " leak "] (.obj [("general", .arr [.str " leak "])]) ∧
    categorize [("errors", .obj [("title", .str " leak ")])] "title" =
      categorize [("errors", .obj [("general", .arr [.str " leak "])])] "title" := by
  have helement : IsElement (.str " leak ") := .text ⟨'l', by decide, by decide⟩
  have hbyPath : Wraps "title" _ (.obj [("title", .str " leak ")]) := .elementByPath helement
  have hgeneral : Wraps "title" _ (.obj [("general", .arr [.str " leak "])]) := .general _
  exact ⟨helement, hbyPath, hgeneral, categorize_wraps hbyPath hgeneral "errors" [] []⟩

end CodeReview.Response
