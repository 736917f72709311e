import CodeReview.Proofs.Response.Headings
import CodeReview.Proofs.Response.Spans
import CodeReview.Proofs.Steps
import CodeReview.Response.Issues
import Mathlib

/-!
# Which reading of a response counts

A response is read as JSON, else by the longest of its spans that is a JSON object, else as running
text.

* `read_object_in_prose`: a JSON object between texts without an opening brace is what is read.
* `read_embedded`: of several objects a longest kept one is read (`Span.Kept`). An object in a span
  that is kept itself is passed over, even when that span is no JSON.
* `read_eq_markdown_iff`: a review in running text is read as one exactly if no kept span of it is a
  JSON object, whatever the object is about.
-/

namespace CodeReview.Response

open Braces Json Text

/-! ## JSON objects in spans -/

theorem readValue?_object {fuel : Nat} {cs rest : List Char} {v : Json}
    (h : readValue? fuel ('\x7b' :: cs) = some (v, rest)) : ∃ fields, v = .obj fields := by
  cases fuel with
  | zero => simp [readValue?] at h
  | succ fuel =>
    simp only [readValue?] at h
    split at h
    · obtain ⟨rfl, -⟩ := Prod.mk.inj (Option.some.inj h)
      exact ⟨_, rfl⟩
    · obtain ⟨⟨fields, after⟩, -, heq⟩ := Option.map_eq_some_iff.1 h
      obtain ⟨rfl, -⟩ := Prod.mk.inj heq
      exact ⟨fields, rfl⟩

/-- What reads as JSON behind an opening brace is an object. -/
theorem fieldsOfJson?_brace {cs : List Char} {fields : Fields} :
    fieldsOfJson? ('\x7b' :: cs) = some fields ↔
      parseChars? ('\x7b' :: cs) = some (.obj fields) := by
  unfold fieldsOfJson?
  cases hparse : parseChars? ('\x7b' :: cs) with
  | none => simp
  | some v =>
    obtain ⟨fuel, rest, hread, -⟩ := parseChars?_eq_some hparse
    rw [skipSpace, List.dropWhile_cons_of_neg (by decide)] at hread
    obtain ⟨found, rfl⟩ := readValue?_object hread
    simp

end CodeReview.Response

namespace CodeReview.Response.Braces.Span

open Json Text

variable {text : List Char}

/-- The span reads as a JSON object with these fields. -/
def IsObject (s : Span text) (fields : Fields) : Prop := parseChars? s.chars = some (.obj fields)

/-- The span reads as a JSON object with these fields, and no span that satisfies `among` and reads
as an object is longer. -/
structure IsLongestObject (among : Span text → Prop) (s : Span text) (fields : Fields) : Prop where
  isObject : s.IsObject fields
  mem : among s
  longest {t : Span text} {other : Fields} (ht : t.IsObject other) (hmem : among t) :
    t.chars.length ≤ s.chars.length

theorem exists_cons (s : Span text) : ∃ inner, s.chars = '\x7b' :: inner := by
  have hle := s.first_le_last
  rw [chars, List.extract_eq_take_drop, s.drop_first,
    show s.last + 1 - s.first = (s.last - s.first) + 1 by omega, List.take_succ_cons]
  exact ⟨_, rfl⟩

theorem fieldsOfJson?_eq_some_iff {s : Span text} {fields : Fields} :
    fieldsOfJson? s.chars = some fields ↔ s.IsObject fields := by
  rw [IsObject]
  obtain ⟨inner, hinner⟩ := s.exists_cons
  rw [hinner]
  exact fieldsOfJson?_brace

end CodeReview.Response.Braces.Span

namespace CodeReview.Response

open Braces Json Text

/-! ## The longest first -/

section Longest

variable {α : Type} {f : List Char → Option α} {spans : List (List Char)}

theorem findSome?_longest {a : α} (hsorted : spans.Pairwise fun s t => t.length ≤ s.length)
    (h : spans.findSome? f = some a) :
    ∃ s ∈ spans, f s = some a ∧ ∀ t ∈ spans, (f t).isSome → t.length ≤ s.length := by
  induction spans with
  | nil => exact nomatch h
  | cons s spans ih =>
    obtain ⟨hs, hspans⟩ := List.pairwise_cons.1 hsorted
    rw [List.findSome?_cons] at h
    split at h
    · next found hfound =>
      refine ⟨s, List.mem_cons_self, by rw [hfound, Option.some.inj h], fun t ht _ => ?_⟩
      rcases List.mem_cons.1 ht with rfl | ht
      · exact Nat.le_refl _
      · exact hs t ht
    · next hnone =>
      obtain ⟨t, ht, hfound, hlongest⟩ := ih hspans h
      refine ⟨t, List.mem_cons_of_mem s ht, hfound, fun u hu hsome => ?_⟩
      rcases List.mem_cons.1 hu with rfl | hu
      · simp [hnone] at hsome
      · exact hlongest u hu hsome

end Longest

/-! ## Readings -/

section Readings

variable {text : List Char} {fields : Fields}

/-- The reading of a text in which no JSON is found. -/
def readProse (text : List Char) : Except Failure Fields :=
  match Markdown.read? text with
  | .ok (some fields) => .ok fields
  | .ok none => .error (.unreadableResponse (String.ofList (text.take quotedLength)))
  | .error failure => .error failure

theorem read_of_jsonFields? (hne : Chars.trim text ≠ [])
    (h : jsonFields? (Chars.trim text) = some fields) : read text = .ok fields := by
  have hempty : (Chars.trim text).isEmpty = false := by simpa using hne
  simp only [read, hempty, h]
  rfl

theorem read_of_no_json (hne : Chars.trim text ≠ [])
    (h : jsonFields? (Chars.trim text) = none) : read text = readProse (Chars.trim text) := by
  have hempty : (Chars.trim text).isEmpty = false := by simpa using hne
  simp only [read, hempty, h, readProse]
  rcases Markdown.read? (Chars.trim text) with failure | (_ | found) <;> rfl

theorem jsonFields?_of_span (hjson : fieldsOfJson? (Chars.trim text) = none) :
    jsonFields? (Chars.trim text) = (longestFirst (Chars.trim text)).findSome? fieldsOfJson? := by
  rw [jsonFields?, hjson, Option.none_or]

/-- The spans that are kept decide what is found between braces. -/
theorem jsonFields?_eq_none (hjson : fieldsOfJson? (Chars.trim text) = none)
    (h : ∀ (s : Span text) (object : Fields), s.IsObject object → ¬ s.Kept) :
    jsonFields? (Chars.trim text) = none := by
  rw [jsonFields?_of_span hjson, List.findSome?_eq_none_iff]
  intro chars hchars
  rw [mem_longestFirst, spans_trim, mem_spans_iff] at hchars
  obtain ⟨s, hs, rfl⟩ := hchars
  cases hobject : fieldsOfJson? s.chars with
  | none => rfl
  | some object => exact absurd hs (h s object (Span.fieldsOfJson?_eq_some_iff.1 hobject))

theorem jsonFields?_eq_some (hjson : fieldsOfJson? (Chars.trim text) = none)
    {s : Span text} {object : Fields} (hs : s.IsObject object) (hkept : s.Kept) :
    ∃ (t : Span text) (longest : Fields), t.IsLongestObject Span.Kept longest ∧
      jsonFields? (Chars.trim text) = some longest := by
  have hmem {t : Span text} (ht : t.Kept) : t.chars ∈ longestFirst (Chars.trim text) := by
    rw [mem_longestFirst, spans_trim, mem_spans_iff]
    exact ⟨t, ht, rfl⟩
  cases hfound : (longestFirst (Chars.trim text)).findSome? fieldsOfJson? with
  | none =>
    have hnone := List.findSome?_eq_none_iff.1 hfound s.chars (hmem hkept)
    rw [Span.fieldsOfJson?_eq_some_iff.2 hs] at hnone
    exact nomatch hnone
  | some longest =>
    obtain ⟨chars, hchars, hread, hlongest⟩ :=
      findSome?_longest (pairwise_longestFirst (Chars.trim text)) hfound
    rw [mem_longestFirst, spans_trim, mem_spans_iff] at hchars
    obtain ⟨t, ht, rfl⟩ := hchars
    refine ⟨t, longest, ⟨Span.fieldsOfJson?_eq_some_iff.1 hread, ht, fun hu hkept => ?_⟩, ?_⟩
    · refine hlongest _ (hmem hkept) ?_
      rw [Span.fieldsOfJson?_eq_some_iff.2 hu]
      rfl
    · rw [jsonFields?_of_span hjson, hfound]

end Readings

/-! ## Objects -/

/-- A scan for the closing brace stays in step with the reader of JSON. So an object between texts
that open no brace is what is read. -/
theorem read_object_in_prose {object : List Char} {fields : Fields}
    (hobject : parseChars? object = some (.obj fields)) (hopen : object.head? = some '\x7b')
    (hclose : object.getLast? = some '\x7d') :
    (∀ rest, closing? (object ++ rest) 0 = some (object.length - 1)) ∧
    ∀ before after, '\x7b' ∉ before → '\x7b' ∉ after →
      fieldsOfJson? (Chars.trim (before ++ object ++ after)) = none →
      read (before ++ object ++ after) = .ok fields := by
  constructor
  · intro rest
    rw [closing?, List.drop_zero, afterClosing?_object hobject hopen hclose, Option.map_some,
      List.length_append, Nat.add_sub_cancel_right]
  · intro before after hbefore hafter hjson
    obtain ⟨inner, rfl, -⟩ := balanced_of_parseChars?_braces hobject hopen hclose
    have hspans : spans (Chars.trim (before ++ '\x7b' :: inner ++ after)) = ['\x7b' :: inner] := by
      rw [spans_trim, List.append_assoc, spans_append_left hbefore,
        spans_object hobject hopen hclose, spans_eq_nil hafter]
    refine read_of_jsonFields? (fun hnil => ?_) ?_
    · rw [hnil, spans_nil] at hspans
      cases hspans
    · rw [jsonFields?_of_span hjson, longestFirst, hspans, List.mergeSort_singleton,
        List.findSome?_cons, fieldsOfJson?_brace.2 hobject]

/-- A brace and an escaped quote inside a string, and an unbalanced brace and a quote around it. -/
theorem read_object_in_prose_quoted :
    read "so \x7d: \x7b\"a\": \"\x7d\\\"\"\x7d \"ok\x7d".toList = .ok [("a", .str "\x7d\"")] := by
  have h := @read_object_in_prose "\x7b\"a\": \"\x7d\\\"\"\x7d".toList [("a", .str "\x7d\"")]
    (by cbv) (by rfl) (by rfl)
  exact h.2 "so \x7d: ".toList " \"ok\x7d".toList (by decide) (by decide) (by cbv)

/-- Which of the objects in a text is read. A longest of all is, if one of them is kept. In any case
the one that is read is a longest kept one. Without a kept one the text is read as running text. -/
theorem read_embedded {text : List Char} (hblank : Chars.isBlankText text = false)
    (hjson : fieldsOfJson? (Chars.trim text) = none) :
    ((∃ (s : Span text) (object : Fields), s.IsLongestObject (fun _ => True) object ∧ s.Kept) →
      ∃ (s : Span text) (object : Fields), s.IsLongestObject (fun _ => True) object ∧
        read text = .ok object) ∧
    ((∃ (s : Span text) (object : Fields), s.IsObject object ∧ s.Kept) →
      ∃ (s : Span text) (object : Fields), s.IsLongestObject Span.Kept object ∧
        read text = .ok object) ∧
    ((∀ (s : Span text) (object : Fields), s.IsObject object → ¬ s.Kept) →
      read text = readProse (Chars.trim text)) := by
  have hne : Chars.trim text ≠ [] := fun h => by simp [Chars.trim_eq_nil_iff.1 h] at hblank
  have hread {s : Span text} {object : Fields} (hs : s.IsObject object) (hkept : s.Kept) :
      ∃ (t : Span text) (longest : Fields), t.IsLongestObject Span.Kept longest ∧
        read text = .ok longest := by
    obtain ⟨t, longest, ht, hfound⟩ := jsonFields?_eq_some hjson hs hkept
    exact ⟨t, longest, ht, read_of_jsonFields? hne hfound⟩
  refine ⟨?_, ?_, fun h => read_of_no_json hne (jsonFields?_eq_none hjson h)⟩
  · rintro ⟨s, object, hs, hkept⟩
    obtain ⟨t, longest, ht, hfound⟩ := hread hs.isObject hkept
    refine ⟨t, longest, ⟨ht.isObject, trivial, fun hu _ => ?_⟩, hfound⟩
    exact Nat.le_trans (hs.longest hu trivial) (ht.longest hs.isObject hkept)
  · rintro ⟨s, object, hs, hkept⟩
    exact hread hs hkept

/-- The longest object stands behind a span that is no JSON and has an object in it. -/
theorem read_embedded_behind_prose :
    ∃ (s : Span "\x7by \x7b\x7d\x7d \x7b\"a\": 1\x7d".toList) (object : Fields),
      s.IsLongestObject (fun _ => True) object ∧
        read "\x7by \x7b\x7d\x7d \x7b\"a\": 1\x7d".toList = .ok object := by
  have hplaces (t : Span "\x7by \x7b\x7d\x7d \x7b\"a\": 1\x7d".toList) :
      (t.first = 0 ∧ t.last = 5) ∨ (t.first = 3 ∧ t.last = 4) ∨ (t.first = 7 ∧ t.last = 14) := by
    have hopens : ∀ first < 15, "\x7by \x7b\x7d\x7d \x7b\"a\": 1\x7d".toList[first]? = some '\x7b' →
        first = 0 ∨ first = 3 ∨ first = 7 := by decide
    have hlast {last : Nat} (h : closing? _ t.first = some last) : t.last = last :=
      Option.some.inj (t.closes.symm.trans h)
    rcases hopens t.first t.first_lt_length t.opens with h | h | h
    · exact .inl ⟨h, hlast (h ▸ by decide)⟩
    · exact .inr (.inl ⟨h, hlast (h ▸ by decide)⟩)
    · exact .inr (.inr ⟨h, hlast (h ▸ by decide)⟩)
  refine (read_embedded (by decide) (by cbv)).1
    ⟨⟨7, 14, by decide, by decide⟩, [("a", .int 1)], ⟨by cbv, trivial, fun {t _} _ _ => ?_⟩, ?_⟩
  · rw [Span.length_chars, Span.length_chars]
    have := hplaces t
    dsimp only
    omega
  · rw [Span.kept_iff]
    intro t _ hfirst
    have := hplaces t
    dsimp only at hfirst ⊢
    omega

/-- An object inside a span that is no JSON is not found. -/
theorem nested_object_not_read : ¬ ∀ text : List Char, Chars.isBlankText text = false →
    fieldsOfJson? (Chars.trim text) = none →
    (∃ (s : Span text) (object : Fields), s.IsObject object) →
    ∃ (s : Span text) (object : Fields), s.IsLongestObject (fun _ => True) object ∧
      read text = .ok object := by
  intro h
  obtain ⟨s, object, -, hread⟩ :=
    h "\x7b\x7b\"errors\": [\"x\"]\x7d\x7d".toList (by decide) (by cbv)
      ⟨⟨1, 17, by decide, by decide⟩, [("errors", .arr [.str "x"])], by cbv⟩
  have hfails : (read "\x7b\x7b\"errors\": [\"x\"]\x7d\x7d".toList).isOk = false := by cbv
  rw [hread] at hfails
  cases hfails

/-! ## Running text -/

/-- The names of fields that count in a response. -/
def isKnownField (key : String) : Bool :=
  (categoryOf? key).isSome || key == unsortedKey || key == Markdown.Section.commentsKey ||
    key == "summary"

/-- There is an issue in one of the categories. -/
def HasIssue (fields : Fields) : Prop :=
  ∃ (category : Category) (groups : Fields) (path : String) (issues : List Json),
    Keyed.get? fields category.key = some (.obj groups) ∧ (path, .arr issues) ∈ groups ∧ issues ≠ []

/-- The fields of a review in running text with one error and nothing else. -/
def oneError (title : String) : Fields :=
  [("errors", .obj [("general", .arr [.obj [("title", .str title), ("lineStart", .null),
      ("lineEnd", .null), ("severity", .null), ("codeSnippet", .null)]])]),
    ("improvements", .obj []), ("thingsDoneRight", .obj []), ("generalComments", .arr [])]

theorem exists_known_of_read? {text : List Char} {fields : Fields}
    (h : Markdown.read? text = .ok (some fields)) :
    ∃ key ∈ Keyed.keys fields, isKnownField key = true := by
  rw [Markdown.read?] at h
  split at h
  · cases h
  · obtain ⟨review, -, hfields⟩ := exists_of_bind_ok h
    obtain rfl := Option.some.inj (Except.ok.inj hfields)
    refine ⟨Category.errors.key, ?_, by decide⟩
    simp [Markdown.Review.fields, Keyed.keys, Category.all]

/-- A review in running text is read as such exactly if no kept span in it is a JSON object. An
object takes its place whatever it is about. -/
theorem read_eq_markdown_iff {text : List Char} {fields : Fields}
    (htrim : Chars.trim text = text) (hreview : Markdown.read? text = .ok (some fields))
    (hkeys : ∀ (s : Span text) (object : Fields), s.IsObject object → s.Kept →
      ∀ key ∈ Keyed.keys object, isKnownField key = false) :
    read text = .ok fields ↔ ∀ (s : Span text) (object : Fields), s.IsObject object → ¬ s.Kept := by
  have hjson : fieldsOfJson? (Chars.trim text) = none := by
    rw [htrim, fieldsOfJson?, Markdown.parseChars?_of_read? hreview]
  have hne : Chars.trim text ≠ [] := by
    rw [htrim]
    rintro rfl
    exact nomatch hreview
  constructor
  · intro hread s object hs hkept
    obtain ⟨t, longest, ht, hfound⟩ := jsonFields?_eq_some hjson hs hkept
    rw [read_of_jsonFields? hne hfound] at hread
    obtain rfl := Except.ok.inj hread
    obtain ⟨key, hkey, hknown⟩ := exists_known_of_read? hreview
    rw [hkeys t longest ht.isObject ht.mem key hkey] at hknown
    exact nomatch hknown
  · intro hnone
    rw [read_of_no_json hne (jsonFields?_eq_none hjson hnone), htrim, readProse, hreview]

set_option maxRecDepth 1000 in
/-- A review whose one span is no JSON. -/
theorem read_eq_markdown_placeholder :
    read "## Errors\n- drop \x7bx\x7d".toList = .ok (oneError "drop \x7bx\x7d") := by
  have hnone (s : Span "## Errors\n- drop \x7bx\x7d".toList) (object : Fields) :
      ¬ s.IsObject object := by
    have hopens : ∀ first < 20, "## Errors\n- drop \x7bx\x7d".toList[first]? = some '\x7b' →
        first = 17 := by decide
    have hs : s = ⟨17, 19, by decide, by decide⟩ :=
      Span.eq_of_first (hopens s.first s.first_lt_length s.opens)
    have hparse : parseChars? s.chars = none := by
      rw [hs]
      cbv
    rw [Span.IsObject, hparse]
    rintro ⟨⟩
  have h := read_eq_markdown_iff (Chars.trim_eq_self rfl rfl rfl rfl) (by cbv)
    fun s object hs => absurd hs (hnone s object)
  exact h.2 fun s object hs => absurd hs (hnone s object)

set_option maxRecDepth 1000 in
/-- An empty object in a title takes the place of the review. -/
theorem read_ne_markdown : ¬ ∀ (text : List Char) (fields : Fields), Chars.trim text = text →
    Markdown.read? text = .ok (some fields) → HasIssue fields →
    (∀ (s : Span text) (object : Fields), s.IsObject object →
      ∀ key ∈ Keyed.keys object, isKnownField key = false) →
    read text = .ok fields := by
  intro h
  have hread := h "## Errors\n- drop \x7b\x7d".toList (oneError "drop \x7b\x7d")
    (Chars.trim_eq_self rfl rfl rfl rfl) (by cbv)
    ⟨.errors, _, "general", _, rfl, List.mem_singleton_self _, List.cons_ne_nil _ _⟩ ?_
  · have hempty : read "## Errors\n- drop \x7b\x7d".toList = .ok [] := by cbv
    rw [hempty] at hread
    cases hread
  · intro s object hs
    have hopens : ∀ first < 19, "## Errors\n- drop \x7b\x7d".toList[first]? = some '\x7b' →
        first = 17 := by decide
    have hplace : s = ⟨17, 18, by decide, by decide⟩ :=
      Span.eq_of_first (hopens s.first s.first_lt_length s.opens)
    have hparse : parseChars? s.chars = some (.obj []) := by
      rw [hplace]
      cbv
    rw [Span.IsObject, hparse] at hs
    obtain rfl := Json.obj.inj (Option.some.inj hs)
    exact fun key hkey => (List.not_mem_nil hkey).elim

end CodeReview.Response
