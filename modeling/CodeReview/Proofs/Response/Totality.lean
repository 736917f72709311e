import CodeReview.Proofs.Response.Reading
import CodeReview.Proofs.Response.Sections

/-!
# When a response has an outcome

Whatever a response says, its outcome is a review. What is no issue is passed over, what is no line, no
severity and no path is left out of its issue, and a response without structure has no issues. Only
three things break off a review instead (`Breaks`): an infinite number for a line, a letter of a section
heading that only resembles the one of the name, and a mark of lines with a number of too many digits.

`outcome_succeeds_iff` says so, and what the issues of the review are.
-/

namespace CodeReview.Response

open Number Text

/-- Turning a response into a review breaks off. -/
inductive Breaks (body : List Char) (path : String) : Prop
  /-- A line of an issue is an infinite number. -/
  | infiniteLine {fields : Fields} (hfields : jsonFields? (Chars.trim body) = some fields)
    (hitem : HasInfiniteItem fields path)
  /-- A section of running text cannot be read. -/
  | inSection (hjson : jsonFields? (Chars.trim body) = none) {heading lines : List Char}
    (hsection : (heading, lines) ∈ Markdown.sections (Chars.trim body))
    (hbreaks : Markdown.SectionBreaks heading lines)

/-- The issues in each category are what the items of the fields for it describe, in their order. -/
def Complete (found : Findings) (path : String) : Prop :=
  ∀ category, issuesAt (itemsIn (found.parsed.getD []) path (some category)) =
    .ok (found.categories.get category)

section Outcome

variable {response path : String} {body : List Char}

theorem complete_of_findings {fields : Fields} {summary : String} {found : Findings}
    (h : findings fields summary path = .ok found) : Complete found path := by
  obtain ⟨sorted, hsorted, hfound⟩ := exists_of_bind_ok h
  obtain rfl := Except.ok.inj hfound
  exact fun category => issues_of_categorize hsorted (some category)

theorem complete_of_no_fields (summary : Option String) : Complete { summary } path := by
  intro category
  cases category <;> rfl

/-- A response that is a document breaks off at an infinite line only. -/
theorem breaks_iff_of_jsonFields? {fields : Fields} (hjson : jsonFields? (Chars.trim body) = some fields) :
    Breaks body path ↔ HasInfiniteItem fields path := by
  constructor
  · rintro (⟨hfields, hitem⟩ | ⟨hnone, -, -⟩)
    · exact Option.some.inj (hjson.symm.trans hfields) ▸ hitem
    · cases hjson.symm.trans hnone
  · exact .infiniteLine hjson

/-- Any other response breaks off exactly if it cannot be read as running text. -/
theorem breaks_iff_of_no_json (hjson : jsonFields? (Chars.trim body) = none) :
    Breaks body path ↔ ¬ Succeeds (Markdown.read? (Chars.trim body)) := by
  rw [Markdown.succeeds_read?_iff]
  constructor
  · rintro (⟨hfields, -⟩ | ⟨-, hsection, hbreaks⟩) hnone
    · cases hjson.symm.trans hfields
    · exact hnone _ hsection hbreaks
  · intro h
    simp only [not_forall, not_not] at h
    obtain ⟨⟨heading, lines⟩, hsection, hbreaks⟩ := h
    exact .inSection hjson hsection hbreaks

/-- How the reading of a response ends: without structure, with fields, or broken off in running
text. -/
theorem read_cases (body : List Char) (path : String) :
    (∃ failure, read body = .error failure ∧ failure.kind = .parse ∧ ¬ Breaks body path) ∨
    (∃ fields, read body = .ok fields ∧
      (Breaks body path ↔ HasInfiniteItem fields path)) ∨
    (∃ failure, read body = .error failure ∧ failure.kind ≠ .parse ∧ Breaks body path) := by
  by_cases hempty : Chars.trim body = []
  · have hjson : jsonFields? (Chars.trim body) = none := by
      rw [hempty]
      cbv
    refine .inl ⟨.emptyResponse, ?_, rfl, ?_⟩
    · rw [read, hempty]
      rfl
    · rw [breaks_iff_of_no_json hjson, hempty, not_not]
      exact ⟨none, by rfl⟩
  cases hjson : jsonFields? (Chars.trim body) with
  | some fields =>
    exact .inr (.inl ⟨fields, read_of_jsonFields? hempty hjson, breaks_iff_of_jsonFields? hjson⟩)
  | none =>
    have hbreaks := @breaks_iff_of_no_json path body hjson
    have hread := read_of_no_json hempty hjson
    rw [readProse] at hread
    cases hprose : Markdown.read? (Chars.trim body) with
    | error failure =>
      rw [hprose] at hread hbreaks
      refine .inr (.inr ⟨failure, hread, Markdown.failsWith_read? _ failure hprose, hbreaks.2 ?_⟩)
      rintro ⟨_, ⟨⟩⟩
    | ok read =>
      rw [hprose] at hread hbreaks
      have hno : ¬ Breaks body path := fun h => hbreaks.1 h ⟨read, rfl⟩
      cases read with
      | none => exact .inl ⟨_, hread, rfl, hno⟩
      | some fields =>
        have hfinite := Markdown.allFinite_of_read? hprose
        exact .inr (.inl ⟨fields, hread, iff_of_false hno hfinite.not_hasInfiniteItem⟩)

end Outcome

/-- Every response has an outcome unless it breaks off. The outcome is a review of the file, with all
issues that the response describes, and no part of an issue depends on the fields for another. -/
theorem outcome_succeeds_iff (response path : String) :
    (Succeeds (outcome response path) ↔ ¬ Breaks (Fenced.split response.toList).body path) ∧
    (∀ reached, outcome response path = .ok reached →
      ∃ found, reached = ⟨path, .reviewed found⟩ ∧ Complete found path) ∧
    ∀ fields other issue issue', issueOf path fields = .ok issue → issueOf path other = .ok issue' →
      FieldByField fields other issue issue' := by
  have hcases := read_cases (Fenced.split response.toList).body path
  refine ⟨?_, ?_, fun _ _ _ _ => fieldByField_of_issueOf⟩
  · rw [outcome]
    rcases hcases with ⟨failure, hread, hparse, hno⟩ | ⟨fields, hread, hbreaks⟩ |
      ⟨failure, hread, hparse, hbreaks⟩
    · simp only [hread, if_pos hparse]
      exact iff_of_true (.pure _) hno
    · simp only [hread]
      rw [Succeeds.bind_pure_iff, succeeds_findings_iff, hbreaks]
    · simp only [hread, if_neg hparse]
      exact iff_of_false (fun ⟨_, hok⟩ => nomatch hok) (not_not_intro hbreaks)
  · intro reached h
    rw [outcome] at h
    rcases hcases with ⟨failure, hread, hparse, -⟩ | ⟨fields, hread, -⟩ |
      ⟨failure, hread, hparse, -⟩
    · simp only [hread, if_pos hparse] at h
      obtain rfl := Except.ok.inj h
      exact ⟨_, rfl, complete_of_no_fields _⟩
    · simp only [hread] at h
      obtain ⟨found, hfound, hreached⟩ := exists_of_bind_ok h
      obtain rfl := Except.ok.inj hreached
      exact ⟨found, rfl, complete_of_findings hfound⟩
    · simp only [hread, if_neg hparse] at h
      exact nomatch h

set_option maxRecDepth 1000 in
/-- A title out of range, a line that is a list and an issue that is a number do no harm. -/
theorem outcome_succeeds_malformed : ∃ found,
    outcome "\x7b\"errors\": [\x7b\"title\": 1e999, \"line\": []\x7d, 3]\x7d" "a.py" =
      .ok ⟨"a.py", .reviewed found⟩ ∧ Complete found "a.py" := by
  have hparse : jsonFields? (Chars.trim (Fenced.split
      "\x7b\"errors\": [\x7b\"title\": 1e999, \"line\": []\x7d, 3]\x7d".toList).body) =
      some [("errors", .arr [.obj [("title", .float (.infinity false)), ("line", .arr [])],
        .int 3])] := by cbv
  obtain ⟨hiff, hreviewed, -⟩ := outcome_succeeds_iff
    "\x7b\"errors\": [\x7b\"title\": 1e999, \"line\": []\x7d, 3]\x7d" "a.py"
  obtain ⟨reached, hreached⟩ := hiff.2 (by
    rintro (⟨hfields, hitem⟩ | ⟨hjson, -, -⟩)
    · obtain rfl := Option.some.inj (hparse.symm.trans hfields)
      refine (@succeeds_findings_iff _ _ "").1 ?_ hitem
      exact ⟨_, by cbv⟩
    · cases hparse.symm.trans hjson)
  obtain ⟨found, rfl, hcomplete⟩ := hreviewed reached hreached
  exact ⟨found, hreached, hcomplete⟩

set_option maxRecDepth 1000 in
/-- A line out of range breaks off the whole review. -/
theorem outcome_infinite_line : ¬ ∀ response path : String, ∃ found,
    outcome response path = .ok ⟨path, .reviewed found⟩ := by
  intro h
  obtain ⟨found, hfound⟩ :=
    h "\x7b\"errors\": [\x7b\"title\": \"x\", \"lineStart\": 1e999\x7d]\x7d" "a.py"
  have hfails : (outcome "\x7b\"errors\": [\x7b\"title\": \"x\", \"lineStart\": 1e999\x7d]\x7d"
      "a.py").isOk = false := by cbv
  rw [hfound] at hfails
  cases hfails

end CodeReview.Response
