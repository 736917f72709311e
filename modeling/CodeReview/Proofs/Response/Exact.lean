import CodeReview.Proofs.Json.Exact
import CodeReview.Proofs.Response.Reading

/-!
# What a response leaves behind

The fields that are read off a response are exact, in JSON as in running text (`exact_of_read`), and so are
those that an outcome keeps (`exact_of_outcome`): they can be printed, and are read again as they were.
-/

namespace CodeReview.Response

open Json Text

/-! ## Bullets -/

namespace Bullet

/-- The number of a line can be written. -/
def IsWritable (n : Int) : Prop := (Nat.toDigits 10 n.natAbs).length ≤ Number.digitLimit

theorem isWritable_of_lineNumber {digits : List Char} {n : Int}
    (h : lineNumber digits = .ok n) : IsWritable n := by
  unfold lineNumber at h
  split at h
  · next hread =>
    obtain rfl := Except.ok.inj h
    exact Number.length_toDigits_of_readInteger hread
  · exact nomatch h
  · exact nomatch h

theorem isWritable_of_takeLines {cs rest : List Char} {first last : Int}
    (h : takeLines cs = .ok (some (first, last), rest)) : IsWritable first ∧ IsWritable last := by
  unfold takeLines at h
  split at h
  · exact nomatch h
  · obtain ⟨first', hfirst, h⟩ := exists_of_bind_ok h
    have hfirst' := isWritable_of_lineNumber hfirst
    split at h
    · obtain ⟨last', hlast, h⟩ := exists_of_bind_ok h
      obtain ⟨⟨⟩⟩ := Except.ok.inj h
      exact ⟨hfirst', isWritable_of_lineNumber hlast⟩
    · obtain ⟨last', hlast, h⟩ := exists_of_bind_ok h
      obtain rfl := Except.ok.inj hlast
      obtain ⟨⟨⟩⟩ := Except.ok.inj h
      exact ⟨hfirst', hfirst'⟩

theorem exact_of_issue {bullet : List Char} {fields : Fields} (h : issue bullet = .ok fields) :
    Exact (.obj fields) := by
  obtain ⟨⟨range, rest⟩, hrange, hfields⟩ := exists_of_bind_ok h
  obtain rfl := Except.ok.inj hfields
  have hlines : Exact (.ofInt? (range.map (·.1))) ∧ Exact (.ofInt? (range.map (·.2))) := by
    cases range with
    | none => exact ⟨.null, .null⟩
    | some range =>
      obtain ⟨hfirst, hlast⟩ := isWritable_of_takeLines hrange
      exact ⟨.int hfirst, .int hlast⟩
  have hnames : ["title", "lineStart", "lineEnd", "severity", "codeSnippet"].Nodup := by decide
  refine .obj hnames fun field hfield => ?_
  simp only [List.mem_cons, List.not_mem_nil, or_false] at hfield
  obtain rfl | rfl | rfl | rfl | rfl := hfield
  exacts [.str _, hlines.1, hlines.2, exact_ofText? _, exact_ofText? _]

end Bullet

/-! ## Sections -/

namespace Markdown

theorem exact_of_issuesByGroup {body : List Char} {groups : Keyed (List Json)}
    (h : issuesByGroup body = .ok groups) : ∀ group ∈ groups, ∀ issue ∈ group.2, Exact issue := by
  obtain ⟨found, hfound, hgroups⟩ := exists_of_bind_ok h
  obtain rfl := Except.ok.inj hgroups
  intro group hgroup issue hissue
  obtain ⟨⟨path, bullets⟩, -, hbullets⟩ := exists_of_mem_mapM_ok hfound (List.mem_filter.1 hgroup).1
  obtain ⟨issues, hissues, hgroup⟩ := exists_of_bind_ok hbullets
  obtain rfl := Except.ok.inj hgroup
  obtain ⟨fields, hfields, rfl⟩ := List.mem_map.1 hissue
  obtain ⟨bullet, -, hbullet⟩ := exists_of_mem_mapM_ok hissues hfields
  exact Bullet.exact_of_issue hbullet

/-- Every path of a category stands in the review once, with exact issues. -/
structure Review.IsExact (review : Review) : Prop where
  nodup_paths (category : Category) : (review.issues.get category).keys.Nodup
  exact_issue (category : Category) : ∀ group ∈ review.issues.get category, ∀ issue ∈ group.2, Exact issue

theorem Review.IsExact.add {review next : Review} (hreview : review.IsExact) {heading body : List Char}
    (h : review.add heading body = .ok next) : next.IsExact := by
  obtain ⟨named, -, hnamed⟩ := exists_of_bind_ok h
  cases named with
  | comments =>
    obtain rfl := Except.ok.inj hnamed
    exact ⟨hreview.nodup_paths, hreview.exact_issue⟩
  | issues category =>
    obtain ⟨groups, hgroups, hnext⟩ := exists_of_bind_ok hnamed
    obtain rfl := Except.ok.inj hnext
    refine ⟨fun other => ?_, fun other => ?_⟩
    · rw [ByCategory.get_modify]
      split
      · exact Keyed.nodup_keys_extendAll (hreview.nodup_paths other) groups
      · exact hreview.nodup_paths other
    · rw [ByCategory.get_modify]
      split
      · intro group hgroup issue hissue
        obtain ⟨old, hold, hissue⟩ | ⟨new, hnew, hissue⟩ := Keyed.mem_extendAll.1 ⟨group, hgroup, hissue⟩
        · exact hreview.exact_issue other old hold issue hissue
        · exact exact_of_issuesByGroup hgroups new hnew issue hissue
      · exact hreview.exact_issue other

theorem Review.IsExact.fields {review : Review} (h : review.IsExact) : Exact (.obj review.fields) := by
  have hnames : review.fields.keys.Nodup := by
    change ["errors", "improvements", "thingsDoneRight", "generalComments"].Nodup
    decide
  refine .obj hnames fun field hfield => ?_
  obtain hfield | hfield := List.mem_append.1 hfield
  · obtain ⟨category, -, rfl⟩ := List.mem_map.1 hfield
    refine .obj ?_ fun entry hentry => ?_
    · rw [Keyed.keys, List.map_map]
      exact h.nodup_paths category
    obtain ⟨group, hgroup, rfl⟩ := List.mem_map.1 hentry
    exact .arr (h.exact_issue category group hgroup)
  · obtain rfl := List.mem_singleton.1 hfield
    refine .arr fun comment hcomment => ?_
    obtain ⟨text, -, rfl⟩ := List.mem_map.1 hcomment
    exact .str text

theorem exact_of_read? {text : List Char} {fields : Fields} (h : read? text = .ok (some fields)) :
    Exact (.obj fields) := by
  rw [read?] at h
  split at h
  · cases h
  · obtain ⟨review, hreview, hfields⟩ := exists_of_bind_ok h
    obtain rfl := Option.some.inj (Except.ok.inj hfields)
    have hexact : review.IsExact := by
      refine invariant_of_foldlM_ok (fun part _ _ _ hexact hadd => hexact.add hadd) ?_ hreview
      refine ⟨fun category => ?_, fun category => ?_⟩ <;> rw [ByCategory.get_const]
      · exact List.nodup_nil
      · exact fun _ hgroup => absurd hgroup List.not_mem_nil
    exact hexact.fields

end Markdown

/-! ## Responses -/

theorem exact_of_fieldsOfJson? {text : List Char} {fields : Fields} (h : fieldsOfJson? text = some fields) :
    Exact (.obj fields) := by
  unfold fieldsOfJson? at h
  split at h
  · next hparse =>
    obtain rfl := Option.some.inj h
    exact exact_of_parseChars? hparse
  · next hparse =>
    obtain rfl := Option.some.inj h
    refine .obj (List.nodup_singleton _) fun field hfield => ?_
    obtain rfl := List.mem_singleton.1 hfield
    exact exact_of_parseChars? hparse
  · exact nomatch h

/-- Whichever way a response is read, its fields are exact. -/
theorem exact_of_read {response : List Char} {fields : Fields} (h : read response = .ok fields) :
    Exact (.obj fields) := by
  by_cases hne : Chars.trim response = []
  · simp only [read, hne] at h
    cases h
  cases hjson : jsonFields? (Chars.trim response) with
  | some found =>
    obtain rfl := Except.ok.inj ((read_of_jsonFields? hne hjson).symm.trans h)
    obtain hwhole | ⟨-, hspan⟩ := Option.or_eq_some_iff.1 hjson
    · exact exact_of_fieldsOfJson? hwhole
    · obtain ⟨span, -, hspan⟩ := List.exists_of_findSome?_eq_some hspan
      exact exact_of_fieldsOfJson? hspan
  | none =>
    rw [read_of_no_json hne hjson, readProse] at h
    split at h
    · next hread =>
      obtain rfl := Except.ok.inj h
      exact Markdown.exact_of_read? hread
    · cases h
    · cases h

/-- What an outcome keeps of its response is exact. -/
theorem exact_of_outcome {response path : String} {outcome : Outcome} {fields : Fields}
    (h : Response.outcome response path = .ok outcome) (hfields : outcome.findings.parsed = some fields) :
    Exact (.obj fields) := by
  rw [Response.outcome] at h
  split at h
  · next hread =>
    obtain ⟨findings, hfindings, houtcome⟩ := exists_of_bind_ok h
    obtain rfl := Except.ok.inj houtcome
    obtain ⟨sorted, -, hfound⟩ := exists_of_bind_ok hfindings
    obtain rfl := Except.ok.inj hfound
    obtain rfl := Option.some.inj hfields
    exact exact_of_read hread
  · split at h
    · obtain rfl := Except.ok.inj h
      exact nomatch hfields
    · exact nomatch h

end CodeReview.Response
