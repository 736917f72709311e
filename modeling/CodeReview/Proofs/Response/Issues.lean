import CodeReview.Proofs.Steps
import CodeReview.Response.Issues

/-!
# Issues of a response

Of all that a response may hold, only an infinite number for a line is no line and no text either, and
is not passed over. So the issues of a response are found unless one has such a line
(`succeeds_findings_iff`), in particular those of a response with finite numbers
(`succeeds_findings`). What is found is what the items of the fields describe, in order and without
gaps (`issues_of_categorize`), and each field of an issue comes from its own names
(`fieldByField_of_issueOf`).
-/

namespace CodeReview.Response

open Number Text

/-! ## Finite numbers -/

/-- The value is an infinite number. -/
def IsInfinite (value : Json) : Prop := ∃ x : Binary64, value = .float x ∧ x.isInfinite = true

/-- Every number in the value is finite. -/
inductive AllFinite : Json → Prop
  | null : AllFinite .null
  | bool (b : Bool) : AllFinite (.bool b)
  | int (n : Int) : AllFinite (.int n)
  | float {x : Binary64} (h : x.isFinite = true) : AllFinite (.float x)
  | str (s : String) : AllFinite (.str s)
  | arr {items : List Json} (h : ∀ item ∈ items, AllFinite item) : AllFinite (.arr items)
  | obj {fields : Fields} (h : ∀ field ∈ fields, AllFinite field.2) : AllFinite (.obj fields)

theorem AllFinite.not_isInfinite {value : Json} (h : AllFinite value) : ¬ IsInfinite value := by
  rintro ⟨x, rfl, hx⟩
  cases h with
  | float hfinite =>
    simp only [Binary64.isFinite, Binary64.isInfinite, decide_eq_true_eq, Bool.and_eq_true,
      beq_iff_eq] at hfinite hx
    omega

theorem AllFinite.of_get? {fields : Fields} (h : AllFinite (.obj fields)) {name : String}
    {value : Json} (hvalue : Keyed.get? fields name = some value) : AllFinite value := by
  cases h with
  | obj h =>
    obtain ⟨before, after, rfl, -⟩ := List.lookup_eq_some_iff.1 hvalue
    exact h (name, value) (by simp)

theorem AllFinite.of_firstOf? {fields : Fields} (h : AllFinite (.obj fields)) {names : List String}
    {value : Json} (hvalue : fields.firstOf? names = some value) : AllFinite value := by
  obtain ⟨name, -, hname⟩ := List.exists_of_findSome?_eq_some hvalue
  split at hname
  · exact nomatch hname
  · exact nomatch hname
  · next found _ hfound => exact Option.some.inj hname ▸ h.of_get? hfound

/-! ## One issue -/

/-- A line of the issue that the fields describe is an infinite number. -/
def HasInfiniteLine (fields : Fields) : Prop :=
  ∃ names ∈ [lineStartKeys, lineEndKeys], ∃ value, fields.firstOf? names = some value ∧
    IsInfinite value

/-- The fields agree under these names. -/
def SameUnder (names : List String) (fields other : Fields) : Prop :=
  ∀ name ∈ names, Keyed.get? fields name = Keyed.get? other name

/-- Two issues are alike wherever the fields they come from are: each part of an issue depends on the
fields under its own names, and on nothing else. -/
structure FieldByField (fields other : Fields) (issue issue' : Issue) : Prop where
  title (h : SameUnder titleKeys fields other) : issue.title = issue'.title
  path (h : SameUnder pathKeys fields other) : issue.path = issue'.path
  lineStart (h : SameUnder lineStartKeys fields other) : issue.lineStart = issue'.lineStart
  lineEnd (h : SameUnder lineEndKeys fields other) : issue.lineEnd = issue'.lineEnd
  severity (h : SameUnder [severityKey] fields other) : issue.severity = issue'.severity
  snippet (h : SameUnder snippetKeys fields other) : issue.snippet = issue'.snippet

section Issue

variable {value : Json} {fields other : Fields} {path : String}

theorem succeeds_wholeNumber?_iff : Succeeds (wholeNumber? value) ↔ ¬ IsInfinite value := by
  cases value with
  | float x =>
    rw [wholeNumber?]
    split
    · next hwhole =>
      refine iff_of_true ⟨_, rfl⟩ fun ⟨y, hy, hinfinite⟩ => ?_
      obtain rfl := Json.float.inj hy
      have hfinite : AllFinite (.float x) := .float (by
        rw [Binary64.toInt?] at hwhole
        split at hwhole
        · next h => exact h
        · exact nomatch hwhole)
      exact hfinite.not_isInfinite ⟨x, rfl, hinfinite⟩
    · split
      · next hinfinite =>
        exact iff_of_false (fun ⟨_, h⟩ => nomatch h) (not_not_intro ⟨x, rfl, hinfinite⟩)
      · next hnan =>
        refine iff_of_true ⟨_, rfl⟩ fun ⟨y, hy, hinfinite⟩ => hnan ?_
        exact Json.float.inj hy ▸ hinfinite
  | null | bool | int | str | arr | obj => exact iff_of_true ⟨_, rfl⟩ fun ⟨_, h, _⟩ => nomatch h

theorem succeeds_lineOf?_iff {names : List String} : Succeeds (lineOf? fields names) ↔
    ¬ ∃ value, fields.firstOf? names = some value ∧ IsInfinite value := by
  unfold lineOf?
  split
  · next value hvalue =>
    rw [succeeds_wholeNumber?_iff, hvalue]
    simp only [Option.some.injEq, exists_eq_left']
  · next hnone => exact iff_of_true (.pure none) (by simp [hnone])

theorem succeeds_issueOf_iff : Succeeds (issueOf path fields) ↔ ¬ HasInfiniteLine fields := by
  have hlines : ¬ HasInfiniteLine fields ↔
      Succeeds (lineOf? fields lineStartKeys) ∧ Succeeds (lineOf? fields lineEndKeys) := by
    simp [HasInfiniteLine, succeeds_lineOf?_iff]
  rw [hlines]
  exact Succeeds.bind_iff fun _ => Succeeds.bind_pure_iff _

theorem succeeds_issue?_iff : Succeeds (issue? path value) ↔
    ∀ fields, value = .obj fields → ¬ HasInfiniteLine fields := by
  cases value with
  | obj fields =>
    rw [issue?, Succeeds.bind_pure_iff, succeeds_issueOf_iff]
    exact ⟨fun h fields heq => Json.obj.inj heq ▸ h, fun h => h fields rfl⟩
  | null | bool | int | float | str | arr => exact iff_of_true ⟨_, rfl⟩ nofun

theorem firstOf?_congr {names : List String} (h : SameUnder names fields other) :
    fields.firstOf? names = other.firstOf? names := by
  unfold Fields.firstOf?
  induction names with
  | nil => rfl
  | cons name names ih =>
    rw [List.findSome?_cons, List.findSome?_cons, h name List.mem_cons_self,
      ih fun other hother => h other (List.mem_cons_of_mem name hother)]

/-- What one field of an issue is like, only its own part of the issue shows. -/
theorem fieldByField_of_issueOf {issue issue' : Issue} (h : issueOf path fields = .ok issue)
    (h' : issueOf path other = .ok issue') : FieldByField fields other issue issue' := by
  obtain ⟨first, hfirst, hrest⟩ := exists_of_bind_ok h
  obtain ⟨last, hlast, hissue⟩ := exists_of_bind_ok hrest
  obtain ⟨first', hfirst', hrest'⟩ := exists_of_bind_ok h'
  obtain ⟨last', hlast', hissue'⟩ := exists_of_bind_ok hrest'
  obtain rfl := Except.ok.inj hissue
  obtain rfl := Except.ok.inj hissue'
  constructor
  · intro hsame
    dsimp only
    rw [firstOf?_congr hsame]
  · intro hsame
    dsimp only
    rw [firstOf?_congr hsame]
  · intro hsame
    rw [lineOf?, firstOf?_congr hsame] at hfirst
    exact Except.ok.inj (hfirst.symm.trans hfirst')
  · intro hsame
    rw [lineOf?, firstOf?_congr hsame] at hlast
    exact Except.ok.inj (hlast.symm.trans hlast')
  · intro hsame
    dsimp only
    rw [hsame severityKey List.mem_cons_self]
  · intro hsame
    dsimp only
    rw [firstOf?_congr hsame]

end Issue

/-! ## Items -/

/-- The issues that values describe, each of the file at the path that stands with it unless it names
another. -/
def issuesAt (items : List (String × Json)) : Except Failure (List Issue) := do
  let issues ← items.mapM fun (path, item) => issue? path item
  return issues.filterMap id

/-- The items of a list; any other value is its one item. -/
def itemsOf : Json → List Json
  | .arr items => items
  | value => [value]

/-- The items of a shape, each with the path of the file it is about. -/
def IssueSource.items (path : String) : IssueSource → List (String × Json)
  | list items => items.map (path, ·)
  | single item => [(path, item)]
  | byPath groups => groups.flatMap fun (group, value) =>
      (itemsOf value).map (groupPath path group, ·)

section Items

variable {value : Json} {path : String}

theorem succeeds_issuesAt_iff {items : List (String × Json)} : Succeeds (issuesAt items) ↔
    ∀ item ∈ items, ∀ fields, item.2 = .obj fields → ¬ HasInfiniteLine fields := by
  rw [issuesAt, Succeeds.bind_pure_iff, Succeeds.mapM_iff]
  exact forall₂_congr fun item _ => succeeds_issue?_iff

theorem issuesAt_append (items items' : List (String × Json)) :
    issuesAt (items ++ items') = do
      let issues ← issuesAt items
      let issues' ← issuesAt items'
      return issues ++ issues' := by
  simp [issuesAt, List.mapM_append]

theorem issuesAt_flatMap {α : Type} (f : α → List (String × Json)) (groups : List α) :
    issuesAt (groups.flatMap f) = do
      let issues ← groups.mapM fun group => issuesAt (f group)
      return issues.flatten := by
  induction groups with
  | nil => rfl
  | cons group groups ih => simp [issuesAt_append, ih]

theorem issuesOfItems_eq (items : List Json) :
    issuesOfItems path items = issuesAt (items.map (path, ·)) := by
  rw [issuesAt, List.mapM_map]
  rfl

theorem issuesOfValue_eq : issuesOfValue path value = issuesAt ((itemsOf value).map (path, ·)) := by
  rw [← issuesOfItems_eq]
  cases value <;> rfl

theorem issues_eq (source : IssueSource) : source.issues path = issuesAt (source.items path) := by
  cases source with
  | list items => exact issuesOfItems_eq items
  | single item => exact issuesOfItems_eq [item]
  | byPath groups =>
    rw [IssueSource.items, issuesAt_flatMap, IssueSource.issues]
    simp only [issuesOfValue_eq]

end Items

/-! ## Whole responses -/

/-- The items that a field holds for a slot, each with the path of the file it is about. -/
def fieldItems (path : String) (slot : Option Category) (field : String × Json) :
    List (String × Json) :=
  if slotOf? field.1 = some slot then
    ((IssueSource.ofJson? field.2).map (·.items path)).getD []
  else []

/-- The items that a response holds for a slot, in order. -/
def itemsIn (fields : Fields) (path : String) (slot : Option Category) : List (String × Json) :=
  fields.flatMap (fieldItems (Path.normalize path) slot)

section Responses

variable {value : Json} {fields : Fields} {path : String} {sorted : Sorted}

/-- One field adds the issues of its items, in each slot. -/
theorem get_of_addField {next : Sorted} {field : String × Json}
    (h : sorted.addField path field = .ok next) (slot : Option Category) :
    ∃ issues, issuesAt (fieldItems path slot field) = .ok issues ∧
      next.get slot = sorted.get slot ++ issues := by
  unfold Sorted.addField at h
  split at h
  · next source target hsource htarget =>
    obtain ⟨issues, hissues, hnext⟩ := exists_of_bind_ok h
    obtain rfl := Except.ok.inj hnext
    rw [fieldItems, hsource, htarget, Sorted.get_extend]
    by_cases hslot : slot = target
    · rw [if_pos hslot, if_pos (congrArg some hslot.symm)]
      exact ⟨issues, issues_eq source ▸ hissues, rfl⟩
    · rw [if_neg hslot, if_neg fun h => hslot (Option.some.inj h).symm]
      exact ⟨[], rfl, (List.append_nil _).symm⟩
  · next hnone =>
    obtain rfl := Except.ok.inj h
    refine ⟨[], ?_, (List.append_nil _).symm⟩
    rw [fieldItems]
    split
    · next hslot =>
      cases hsource : IssueSource.ofJson? field.2 with
      | none => rfl
      | some source => exact absurd hslot (hnone source slot hsource)
    · rfl

theorem get_of_foldlM {fields : List (String × Json)} {last : Sorted}
    (h : fields.foldlM (Sorted.addField · path) sorted = .ok last) (slot : Option Category) :
    ∃ issues, issuesAt (fields.flatMap (fieldItems path slot)) = .ok issues ∧
      last.get slot = sorted.get slot ++ issues := by
  induction fields generalizing sorted with
  | nil =>
    obtain rfl := Except.ok.inj h
    exact ⟨[], rfl, (List.append_nil _).symm⟩
  | cons field fields ih =>
    rw [List.foldlM_cons] at h
    obtain ⟨next, hnext, hlast⟩ := exists_of_bind_ok h
    obtain ⟨front, hfront, hget⟩ := get_of_addField hnext slot
    obtain ⟨behind, hbehind, hget'⟩ := ih hlast
    refine ⟨front ++ behind, ?_, by rw [hget', hget, List.append_assoc]⟩
    rw [List.flatMap_cons, issuesAt_append, hfront, hbehind]
    rfl

/-- What is found is what the items describe: none is left out, and none is made up. -/
theorem issues_of_categorize (h : categorize fields path = .ok sorted) (slot : Option Category) :
    issuesAt (itemsIn fields path slot) = .ok (sorted.get slot) := by
  obtain ⟨issues, hissues, hget⟩ := get_of_foldlM h slot
  have hstart : ({} : Sorted).get slot = [] := by
    cases slot with
    | none => rfl
    | some category => exact ByCategory.get_const [] category
  rw [hget, hstart, List.nil_append]
  exact hissues

/-- An item of the response that is read as an issue has an infinite line. -/
def HasInfiniteItem (fields : Fields) (path : String) : Prop :=
  ∃ slot, ∃ item ∈ itemsIn fields path slot, ∃ described, item.2 = .obj described ∧
    HasInfiniteLine described

theorem succeeds_addField_iff {field : String × Json} : Succeeds (sorted.addField path field) ↔
    ∀ slot, Succeeds (issuesAt (fieldItems path slot field)) := by
  constructor
  · rintro ⟨next, hnext⟩ slot
    obtain ⟨issues, hissues, -⟩ := get_of_addField hnext slot
    exact ⟨issues, hissues⟩
  · intro h
    unfold Sorted.addField
    split
    · next source target hsource htarget =>
      have htarget := h target
      rw [fieldItems, hsource, if_pos ‹_›] at htarget
      rw [Succeeds.bind_pure_iff, issues_eq]
      exact htarget
    · exact .pure sorted

theorem succeeds_findings_iff {summary : String} :
    Succeeds (findings fields summary path) ↔ ¬ HasInfiniteItem fields path := by
  have hsorted : Succeeds (categorize fields path) ↔ ∀ field ∈ fields, ∀ slot,
      Succeeds (issuesAt (fieldItems (Path.normalize path) slot field)) :=
    Succeeds.foldlM_iff (f := (Sorted.addField · (Path.normalize path)))
      (fun _ _ _ => succeeds_addField_iff) {}
  rw [findings, Succeeds.bind_pure_iff, hsorted]
  simp only [succeeds_issuesAt_iff, HasInfiniteItem, itemsIn, List.mem_flatMap, not_exists, not_and]
  exact ⟨fun h slot item ⟨field, hfield, hitem⟩ described => h field hfield slot item hitem described,
    fun h field hfield slot item hitem described =>
      h slot item ⟨field, hfield, hitem⟩ described⟩

/-! ### Responses with finite numbers -/

theorem AllFinite.of_mem_itemsOf (h : AllFinite value) {item : Json} (hitem : item ∈ itemsOf value) :
    AllFinite item := by
  cases value with
  | arr items =>
    cases h with
    | arr h => exact h item hitem
  | null | bool | int | float | str | obj => exact List.mem_singleton.1 hitem ▸ h

theorem AllFinite.of_mem_items (h : AllFinite value) {source : IssueSource}
    (hsource : IssueSource.ofJson? value = some source) {item : String × Json}
    (hitem : item ∈ source.items path) : AllFinite item.2 := by
  cases h with
  | null | bool | int | float => exact nomatch hsource
  | arr h =>
    obtain rfl := Option.some.inj hsource
    obtain ⟨value, hvalue, rfl⟩ := List.mem_map.1 hitem
    exact h value hvalue
  | str s =>
    rw [IssueSource.ofJson?] at hsource
    split at hsource
    · exact nomatch hsource
    · obtain rfl := Option.some.inj hsource
      obtain rfl := List.mem_singleton.1 hitem
      exact .str _
  | obj h =>
    rw [IssueSource.ofJson?] at hsource
    obtain rfl := Option.some.inj hsource
    split at hitem
    · obtain rfl := List.mem_singleton.1 hitem
      exact .obj h
    · obtain ⟨group, hgroup, hmem⟩ := List.mem_flatMap.1 hitem
      obtain ⟨value, hvalue, rfl⟩ := List.mem_map.1 hmem
      exact (h group hgroup).of_mem_itemsOf hvalue

theorem AllFinite.not_hasInfiniteItem (h : AllFinite (.obj fields)) :
    ¬ HasInfiniteItem fields path := by
  rintro ⟨slot, item, hitem, described, hdescribed, names, -, value, hvalue, hinfinite⟩
  obtain ⟨field, hfield, hitem⟩ := List.mem_flatMap.1 hitem
  have hfinite : AllFinite item.2 := by
    cases h with
    | obj h =>
      rw [fieldItems] at hitem
      split at hitem
      · cases hsource : IssueSource.ofJson? field.2 with
        | none =>
          rw [hsource] at hitem
          exact nomatch hitem
        | some source =>
          rw [hsource] at hitem
          exact (h field hfield).of_mem_items hsource hitem
      · exact nomatch hitem
  rw [hdescribed] at hfinite
  exact (hfinite.of_firstOf? hvalue).not_isInfinite hinfinite

/-- The findings of a response with finite numbers. -/
theorem succeeds_findings (h : AllFinite (.obj fields)) (summary : String) :
    Succeeds (findings fields summary path) :=
  succeeds_findings_iff.2 h.not_hasInfiniteItem

end Responses

/-- A summary behind the response is taken as it is, and the fields are kept. -/
theorem summary_parsed_of_findings {fields : Fields} {summary path : String} {found : Findings}
    (h : findings fields summary path = .ok found) (hsummary : summary.isEmpty = false) :
    found.summary = some summary ∧ found.parsed = some fields := by
  obtain ⟨sorted, -, hfound⟩ := exists_of_bind_ok h
  obtain rfl := Except.ok.inj hfound
  simp [nonEmpty?, hsummary]

end CodeReview.Response
