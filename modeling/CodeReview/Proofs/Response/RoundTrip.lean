import CodeReview.Proofs.Response.Drafts
import CodeReview.Proofs.Text.Scan
import CodeReview.Proofs.Text.Words

/-!
# Reviews that are written line by line

An outline is a review with one item on each line: the headings of sections, in any order and number; under
those for issues the headings of files, and under each of them its findings; general comments under
theirs.

* `Finding.issue_text`: the line of a finding is read as the finding, whatever its title resembles.
* `Outline.exists_lists_of_text`: an outline is read as a review that lists its findings and comments.
-/

namespace CodeReview.Response

open Number Scan Text

/-! ## Small recognisers -/

section Recognisers

variable {c : Char} {rest : List Char}

theorem run?_toDigits (n : Nat) (hc : isDigit c = false) :
    run? isDigit (Nat.toDigits 10 n ++ c :: rest) = some (Nat.toDigits 10 n, c :: rest) :=
  run?_append (isDigits_toDigits n).ne_nil (isDigits_toDigits n).isDigit (by simpa using hc)

theorem someBlanks?_toDigits (n : Nat) (rest : List Char) :
    someBlanks? (' ' :: (Nat.toDigits 10 n ++ rest)) = some (Nat.toDigits 10 n ++ rest) := by
  obtain ⟨d, ds, hds⟩ := List.exists_cons_of_ne_nil (isDigits_toDigits n).ne_nil
  have hd := isBlank_of_isDigit ((isDigits_toDigits n).isDigit d (hds ▸ List.mem_cons_self))
  rw [hds, someBlanks?, if_pos (by decide), blanks, List.cons_append,
    List.dropWhile_cons_of_neg (by simp [hd])]

theorem findFirst?_of_start {α : Type} {recognise : Option Char → List Char → Option (α × List Char)}
    {a : α} {cs : List Char} (h : recognise none cs = some (a, rest)) :
    findFirst? recognise cs = some ([], a, rest) := by
  cases cs <;> rw [findFirst?, findFirst?.go, h] <;> rfl

theorem plain_of_range (hlow : 32 ≤ c.toNat) (hhigh : c.toNat ≤ 90) :
    isLineEnd c = false ∧ c ≠ '\x60' := by
  constructor
  · by_contra hend
    simp only [isLineEnd, Bool.not_eq_false, Bool.or_eq_true, Bool.and_eq_true, decide_eq_true_eq,
      beq_iff_eq] at hend
    omega
  · rintro rfl
    exact absurd hhigh (by decide)

/-- A fence starts where its first character stands. -/
theorem hasFence_append {before : List Char} (h : ∀ c ∈ before, c ≠ '\x60') (cs : List Char) :
    Chars.hasPart fence (before ++ cs) = Chars.hasPart fence cs := by
  induction before with
  | nil => rfl
  | cons c before ih =>
    rw [List.forall_mem_cons] at h
    have hstart : Chars.dropPrefix? fence (c :: (before ++ cs)) = none := by
      rw [fence, Chars.dropPrefix?, if_neg (by simpa using Ne.symm h.1)]
    rw [List.cons_append, Chars.hasPart, hstart, ih h.2]
    rfl

end Recognisers

namespace Markdown

/-! ## Findings -/

/-- Words on one line, with one space between each two, and without a fence. -/
structure Phrase where
  text : List Char
  ne_nil : text ≠ []
  squeezed : Chars.squeeze text = text
  noFence : Chars.hasPart fence text = false

namespace Phrase

variable (phrase : Phrase)

theorem isLine : Chars.IsLine phrase.text := by
  intro c hc
  by_contra hend
  rw [Bool.not_eq_false] at hend
  obtain rfl := Chars.eq_space_of_squeeze phrase.squeezed hc (Chars.isBlank_of_isLineEnd hend)
  exact absurd hend (by decide)

theorem trim_text : Chars.trim phrase.text = phrase.text := Chars.trim_of_squeeze phrase.squeezed

end Phrase

/-- An issue: its severity, its first line, its last one if there are several, and its title. -/
structure Finding where
  severity : List Char
  first : Nat
  last : Option Nat
  title : Phrase
  severity_ne_nil : severity ≠ []
  isUpper : ∀ c ∈ severity, c.isUpper = true
  first_digits : (Nat.toDigits 10 first).length ≤ digitLimit
  last_digits : ∀ n ∈ last, (Nat.toDigits 10 n).length ≤ digitLimit
  noEdge : ∀ c, title.text.head? = some c ∨ title.text.getLast? = some c → c ≠ ':' ∧ c ≠ '-' ∧ c ≠ '–'

namespace Finding

variable (finding : Finding)

/-- The lines of the finding as they are written. -/
def mark : List Char :=
  match finding.last with
  | none => "Line ".toList ++ Nat.toDigits 10 finding.first
  | some last => "Lines ".toList ++ Nat.toDigits 10 finding.first ++ "-".toList ++ Nat.toDigits 10 last

/-- The finding as it is written. -/
def text : List Char :=
  "[".toList ++ finding.severity ++ "] ".toList ++ finding.mark ++ ": ".toList ++ finding.title.text

/-- The finding as it is read. -/
def issue : Json := .obj [
  ("title", .str (String.ofList finding.title.text)),
  ("lineStart", .int finding.first),
  ("lineEnd", .int (finding.last.getD finding.first)),
  ("severity", .str (String.ofList finding.severity)),
  ("codeSnippet", .null)]

/-- A mark of lines at the start of a text, up to the number of the first line. -/
theorem lineMark?_line {plural rest : List Char} {c : Char} (hplural : plural = [] ∨ plural = ['s'])
    (n : Nat) (hc : isDigit c = false) :
    Bullet.lineMark? none ("Line".toList ++ plural ++ ' ' :: (Nat.toDigits 10 n ++ c :: rest)) =
      let (last, rest) := match Bullet.rangeEnd? (c :: rest) with
        | some (last, rest) => (some last, rest)
        | none => (none, c :: rest)
      let rest := (char? ')' rest).getD rest
      some ((Nat.toDigits 10 n, last), (char? ':' rest).getD rest) := by
  generalize hword : plural ++ ' ' :: (Nat.toDigits 10 n ++ c :: rest) = word
  have hline : wordIgnoringCase? "line" ('L' :: 'i' :: 'n' :: 'e' :: word) = some word := rfl
  have hblanks : ((wordIgnoringCase? "s" word).bind someBlanks?).or (someBlanks? word) =
      some (Nat.toDigits 10 n ++ c :: rest) := by
    rw [← hword]
    rcases hplural with rfl | rfl
    · exact someBlanks?_toDigits n (c :: rest)
    · change (someBlanks? (' ' :: (Nat.toDigits 10 n ++ c :: rest))).or _ = _
      rw [someBlanks?_toDigits]
      rfl
  rw [List.append_assoc, hword]
  change Bullet.lineMark? none ('L' :: 'i' :: 'n' :: 'e' :: word) = _
  unfold Bullet.lineMark?
  split
  · next heq => exact absurd (List.cons.inj heq).1 (by decide)
  rw [if_pos (by rfl)]
  simp only [Option.bind_eq_bind, Option.bind_some, hline, hblanks, run?_toDigits n hc]
  rfl

theorem lineMark?_mark (rest : List Char) : Bullet.lineMark? none (finding.mark ++ ':' :: rest) =
    some ((Nat.toDigits 10 finding.first, finding.last.map (Nat.toDigits 10)), rest) := by
  unfold mark
  cases finding.last with
  | none => exact lineMark?_line (.inl rfl) finding.first (by decide)
  | some last =>
    have hblanks : blanks (Nat.toDigits 10 last ++ ':' :: rest) = Nat.toDigits 10 last ++ ':' :: rest :=
      Option.some.inj (someBlanks?_toDigits last (':' :: rest))
    have hend : Bullet.rangeEnd? ('-' :: (Nat.toDigits 10 last ++ ':' :: rest)) =
        some (Nat.toDigits 10 last, ':' :: rest) := by
      change run? isDigit (blanks (Nat.toDigits 10 last ++ ':' :: rest)) = _
      rw [hblanks, run?_toDigits last (by decide)]
    have happend : ("Lines ".toList ++ Nat.toDigits 10 finding.first ++ "-".toList ++
        Nat.toDigits 10 last) ++ ':' :: rest = "Line".toList ++ ['s'] ++ ' ' ::
          (Nat.toDigits 10 finding.first ++ '-' :: (Nat.toDigits 10 last ++ ':' :: rest)) := by
      simp
    rw [happend, lineMark?_line (.inr rfl) finding.first (by decide), hend]
    rfl

/-- What stands in front of the title. -/
def front : List Char := "[".toList ++ finding.severity ++ "] ".toList ++ finding.mark ++ ": ".toList

theorem plain_of_mem_front {c : Char} (h : c ∈ finding.front) : isLineEnd c = false ∧ c ≠ '\x60' := by
  have hdigits {n : Nat} {c : Char} (h : c ∈ Nat.toDigits 10 n) : isLineEnd c = false ∧ c ≠ '\x60' := by
    have hrange := range_of_isAsciiDigit (isAsciiDigit_of_mem_toDigits h)
    exact plain_of_range (by omega) (by omega)
  have hmark : ∀ c ∈ finding.mark, isLineEnd c = false ∧ c ≠ '\x60' := by
    unfold mark
    cases finding.last with
    | none =>
      simp only [List.forall_mem_append]
      exact ⟨by decide, fun c hc => hdigits hc⟩
    | some last =>
      simp only [List.forall_mem_append]
      exact ⟨⟨⟨by decide, fun c hc => hdigits hc⟩, by decide⟩, fun c hc => hdigits hc⟩
  have hseverity : ∀ c ∈ finding.severity, isLineEnd c = false ∧ c ≠ '\x60' := by
    intro c hc
    have hrange := range_of_isUpper (finding.isUpper c hc)
    exact plain_of_range (by omega) (by omega)
  revert c
  unfold front
  simp only [List.forall_mem_append]
  exact ⟨⟨⟨⟨by decide, hseverity⟩, by decide⟩, hmark⟩, by decide⟩

theorem noFence_text : Chars.hasPart fence finding.text = false := by
  have hfront : ∀ c ∈ finding.front, c ≠ '\x60' := fun c hc => (finding.plain_of_mem_front hc).2
  rw [text, ← front, hasFence_append hfront, finding.title.noFence]

theorem isLine_text : Chars.IsLine finding.text := by
  intro c hc
  obtain hc | hc := List.mem_append.1 hc
  · exact (finding.plain_of_mem_front hc).1
  · exact finding.title.isLine c hc

theorem trimBoth_title :
    Chars.trimBoth Bullet.isTitleEdge finding.title.text = finding.title.text := by
  refine Chars.trimBoth_eq_self_iff.2 fun c hc => ?_
  obtain ⟨hcolon, hdash, henDash⟩ := finding.noEdge c hc
  have hspace : c ≠ ' ' := by
    rintro rfl
    exact absurd (Chars.ends_of_trim finding.title.trim_text hc) (by decide)
  simp [Bullet.isTitleEdge, hcolon, hdash, henDash, hspace]

theorem takeTag_text : Bullet.takeTag finding.text =
    (some finding.severity, finding.mark ++ ':' :: ' ' :: finding.title.text) := by
  have htext : finding.text = '[' :: (finding.severity ++ ']' :: ' ' :: (finding.mark ++ ':' :: ' ' ::
      finding.title.text)) := by
    simp [text]
  have halpha : ∀ c ∈ finding.severity, c.isAlpha = true := fun c hc => by
    unfold Char.isAlpha
    rw [finding.isUpper c hc, Bool.true_or]
  have hrun (rest : List Char) : run? Char.isAlpha (finding.severity ++ ']' :: rest) =
      some (finding.severity, ']' :: rest) :=
    run?_append finding.severity_ne_nil halpha (by rintro _ ⟨⟩; rfl)
  have hopen (rest : List Char) : char? '[' (blanks ('[' :: rest)) = some rest := rfl
  have hclose (rest : List Char) : char? ']' (']' :: rest) = some rest := rfl
  have hmark (rest : List Char) : blanks (' ' :: (finding.mark ++ rest)) = finding.mark ++ rest := by
    unfold mark
    cases finding.last <;> rfl
  rw [htext, Bullet.takeTag]
  simp only [hopen, hrun, hclose, hmark, Option.bind_eq_bind, Option.bind_some, Option.pure_def]

theorem takeLines_mark (rest : List Char) : Bullet.takeLines (finding.mark ++ ':' :: rest) =
    .ok (some ((finding.first : Int), ((finding.last.getD finding.first : Nat) : Int)), ' ' :: rest) := by
  have hnumber {n : Nat} (h : (Nat.toDigits 10 n).length ≤ digitLimit) :
      Bullet.lineNumber (Nat.toDigits 10 n) = .ok (n : Int) := by
    rw [Bullet.lineNumber, readInteger_toDigits h]
  have hlast := finding.last_digits
  rw [Bullet.takeLines, findFirst?_of_start (finding.lineMark?_mark rest)]
  dsimp only
  rw [hnumber finding.first_digits, ok_bind]
  cases hfinding : finding.last with
  | none => rfl
  | some last =>
    rw [hfinding] at hlast
    rw [Option.map_some]
    dsimp only
    rw [hnumber (hlast last rfl)]
    rfl

/-- The line of a finding is read as the finding, whatever its title looks like. -/
theorem issue_text : ∃ fields, Bullet.issue finding.text = .ok fields ∧ finding.issue = .obj fields := by
  have htitle : Chars.trimBoth Bullet.isTitleEdge (Chars.squeeze (' ' :: ' ' :: finding.title.text)) =
      finding.title.text := by
    rw [Chars.squeeze_cons_of_isBlank (by decide), Chars.squeeze_cons_of_isBlank (by decide),
      finding.title.squeezed, finding.trimBoth_title]
  refine ⟨_, ?_, rfl⟩
  rw [Bullet.issue, Bullet.takeCode_eq_self finding.noFence_text]
  dsimp only
  rw [finding.takeTag_text]
  dsimp only
  rw [finding.takeLines_mark, ok_bind]
  dsimp only
  rw [htitle]
  simp only [Option.map_some, upper_of_isUpper finding.isUpper]
  rfl

end Finding

/-! ## Lines -/

section Lines

variable {text : List Char}

theorem text?_dash (h : ∀ c, text.head? = some c → isBlank c = false) (hne : text ≠ []) :
    Bullet.text? ("- ".toList ++ text) = some text := by
  obtain ⟨c, rest, rfl⟩ := List.exists_cons_of_ne_nil hne
  change someBlanks? (' ' :: c :: rest) = some (c :: rest)
  rw [someBlanks?, if_pos (by decide), blanks, List.dropWhile_cons_of_neg (by simp [h c rfl])]

/-- The text of a bullet that stands on one line. -/
theorem around_of_single {point : Point} (hmore : point.more = []) (hblock : point.block = none)
    (hrest : point.rest = []) (htrim : Chars.trim point.text = point.text) : point.around = point.text := by
  obtain ⟨c, hc⟩ := Option.ne_none_iff_exists'.1 (mt List.getLast?_eq_none_iff.1 point.ne_nil)
  have hend := Chars.trimEnd_append_of_getLast? hc (Chars.ends_of_trim htrim (.inr hc)) []
  have habove : point.above = point.text := by
    simp [Point.above, hmore, kept, Chars.below]
  have hbelow : Chars.below (kept point.rest) = [] := by
    rw [hrest]
    rfl
  unfold Point.around
  rw [hblock, habove, hbelow]
  exact hend.trans (List.append_nil _)

/-- Bullets on lines of their own. -/
theorem flatMap_chunks {α : Type} {point : α → Point} {line : α → List Char}
    (h : ∀ a, (point a).chunks = [line a]) (items : List α) :
    (items.map point).flatMap Point.chunks = items.map line := by
  rw [List.flatMap_map, List.map_eq_flatMap]
  exact List.flatMap_congr fun a _ => h a

theorem isLine_append {front : List Char} (hfront : Chars.IsLine front) (h : Chars.IsLine text) :
    Chars.IsLine (front ++ text) :=
  List.forall_mem_append.2 ⟨hfront, h⟩

end Lines

namespace Phrase

variable (phrase : Phrase)

/-- The bullet of a phrase. -/
def point : Point where
  first := "- ".toList ++ phrase.text
  text := phrase.text
  starts := text?_dash (fun _ hc => Chars.ends_of_trim phrase.trim_text (.inl hc)) phrase.ne_nil
  ne_nil := phrase.ne_nil
  isLine := isLine_append (by decide) phrase.isLine
  noFence := by rw [hasFence_append (by decide), phrase.noFence]
  more_prose := isProse_nil
  rest_prose := isProse_nil

theorem item_point : phrase.point.item = phrase.text :=
  phrase.point.item_eq.trans (around_of_single rfl rfl rfl phrase.trim_text)

end Phrase

namespace Finding

variable (finding : Finding)

theorem ne_nil : finding.text ≠ [] := by simp [text]

theorem trim_text : Chars.trim finding.text = finding.text := by
  rw [text, ← front]
  exact Chars.trim_append_of_head? (c := '[') rfl (by decide) finding.title.ne_nil finding.title.trim_text

/-- The bullet of a finding. -/
def point : Point where
  first := "- ".toList ++ finding.text
  text := finding.text
  starts := text?_dash (fun _ hc => Chars.ends_of_trim finding.trim_text (.inl hc)) finding.ne_nil
  ne_nil := finding.ne_nil
  isLine := isLine_append (by decide) finding.isLine_text
  noFence := by rw [hasFence_append (by decide), finding.noFence_text]
  more_prose := isProse_nil
  rest_prose := isProse_nil

theorem around_point : finding.point.around = finding.text :=
  around_of_single rfl rfl rfl finding.trim_text

theorem not_hasLongMark_point : ¬ Bullet.HasLongMark finding.point.around := by
  obtain ⟨fields, hfields, -⟩ := finding.issue_text
  rw [around_point]
  exact Bullet.succeeds_issue_iff.1 ⟨fields, hfields⟩

theorem issue_point : finding.point.issue = finding.issue := by
  obtain ⟨fields, hfields, hissue⟩ := finding.issue_text
  rw [Point.issue, around_point, ← fields_of_issue hfields, hissue]
  exact congrArg Json.obj (Bullet.put_codeKey_of_issue finding.noFence_text hfields)

end Finding

/-! ## Outlines -/

/-- The name of a section as it is written. -/
def Section.title : Section → String
  | issues .errors => "Errors"
  | issues .improvements => "Improvements"
  | issues .thingsDoneRight => "Things Done Right"
  | comments => "General Comments"

/-- The heading of a section as it is written. -/
def Section.heading (kind : Section) : List Char := "## ".toList ++ kind.title.toList

theorem Section.heading?_heading (kind : Section) : heading? kind.heading = some kind.title.toList := by
  obtain category | _ := kind
  · cases category <;> decide
  · decide

theorem Section.ofHeading_title (kind : Section) : Section.ofHeading kind.title.toList = .ok kind := by
  obtain category | _ := kind
  · cases category <;> rfl
  · rfl

theorem Section.isLine_heading (kind : Section) : Chars.IsLine kind.heading := by
  obtain category | _ := kind
  · cases category <;> decide
  · decide

/-- Findings under a path. -/
structure FindingGroup where
  path : Phrase
  findings : List Finding
  noMark : ∀ c, path.text.head? = some c ∨ path.text.getLast? = some c → c ≠ '\x60' ∧ c ≠ '*'

/-- A section of an outline. -/
inductive Chapter
  | issues (category : Category) (groups : List FindingGroup)
  | comments (phrases : List Phrase)

/-- A review that is written line by line. -/
abbrev Outline := List Chapter

namespace FindingGroup

variable (group : FindingGroup)

/-- The group as it is written. -/
def lines : List (List Char) :=
  ("### ".toList ++ group.path.text) :: group.findings.map fun finding => "- ".toList ++ finding.text

/-- The group in a draft. -/
def laidOut : Group where
  heading := "### ".toList ++ group.path.text
  path := group.path.text
  run := { front := [], points := group.findings.map Finding.point, front_prose := isProse_nil }
  isLine := isLine_append (by decide) group.path.isLine
  isHeading := by
    have htrim : Chars.trimBoth isMark group.path.text = group.path.text := by
      refine Chars.trimBoth_eq_self_iff.2 fun c hc => ?_
      simp [isMark, group.noMark c hc]
    have hne : group.path.text.isEmpty = false := by simp [group.path.ne_nil]
    change (if isGap ' ' && !group.path.text.isEmpty then
      some (Chars.trimBoth isMark (Chars.trim group.path.text)) else none) = some group.path.text
    rw [hne, if_pos (by decide), group.path.trim_text, htrim]

theorem chunks_laidOut : group.laidOut.heading :: group.laidOut.run.chunks = group.lines := by
  rw [laidOut, lines, Run.chunks, List.nil_append, flatMap_chunks fun _ => rfl]
  rfl

end FindingGroup

namespace Chapter

/-- What the section holds. -/
def kind : Chapter → Section
  | issues category _ => .issues category
  | comments _ => .comments

/-- What stands under the heading of the section. -/
def below : Chapter → List (List Char)
  | issues _ groups => groups.flatMap FindingGroup.lines
  | comments phrases => phrases.map fun phrase => "- ".toList ++ phrase.text

/-- The section as it is written. -/
def lines (chapter : Chapter) : List (List Char) :=
  chapter.kind.heading :: chapter.below

/-- The issues of the section. -/
def entries : Chapter → List Entry
  | issues category groups => groups.flatMap fun group => group.findings.map fun finding =>
    ⟨category, String.ofList group.path.text, finding.issue⟩
  | comments _ => []

/-- The comments of the section. -/
def remarks : Chapter → List String
  | issues .. => []
  | comments phrases => phrases.map fun phrase => String.ofList phrase.text

theorem noSection_of_comments (phrases : List Phrase) :
    ∀ line ∈ phrases.map fun phrase => "- ".toList ++ phrase.text, '\n' ∉ line ∧ heading? line = none := by
  intro line hline
  obtain ⟨phrase, -, rfl⟩ := List.mem_map.1 hline
  exact ⟨phrase.point.isLine.newline_notMem, (headings_eq_none (Bullet.head?_of_text? phrase.point.starts)).1⟩

/-- The section in a draft. -/
def content : Chapter → Content
  | issues category groups =>
    .issues category ⟨[], [], isProse_nil⟩ (groups.map FindingGroup.laidOut)
  | comments phrases =>
    .comments (phrases.map fun phrase => "- ".toList ++ phrase.text) (noSection_of_comments phrases)

theorem kind_content (chapter : Chapter) : chapter.content.kind = chapter.kind := by
  cases chapter <;> rfl

theorem chunks_content (chapter : Chapter) : chapter.content.chunks = chapter.below := by
  cases chapter with
  | comments => rfl
  | issues category groups =>
    have hempty : (⟨[], [], isProse_nil⟩ : Run).chunks = [] := rfl
    rw [content, Content.chunks, hempty, List.nil_append, List.flatMap_map, below]
    exact List.flatMap_congr fun group _ => group.chunks_laidOut

theorem entries_content (chapter : Chapter) : chapter.content.entries = chapter.entries := by
  cases chapter with
  | comments => rfl
  | issues category groups =>
    simp [content, Content.entries, Content.runs, entries, FindingGroup.laidOut, List.flatMap_map,
      Function.comp_def, Finding.issue_point]

theorem remarks_content (chapter : Chapter) : chapter.content.remarks = chapter.remarks := by
  cases chapter with
  | issues => rfl
  | comments phrases =>
    let run : Run := { front := [], points := phrases.map Phrase.point, front_prose := nofun }
    have hchunks : run.chunks = phrases.map fun phrase => "- ".toList ++ phrase.text := by
      rw [Run.chunks, List.nil_append, flatMap_chunks fun _ => rfl]
      rfl
    have hitems : Bullet.items (Chars.lines (Chars.join ['\n'] run.chunks)) =
        phrases.map fun phrase => phrase.text := by
      rw [Content.items_join, run.items_chunks, List.map_map]
      exact List.map_congr_left fun phrase _ => phrase.item_point
    have hsqueeze : (phrases.map fun phrase => phrase.text).map Chars.squeeze =
        phrases.map fun phrase => phrase.text := by
      rw [List.map_map]
      exact List.map_congr_left fun phrase _ => phrase.squeezed
    rw [content, Content.remarks, ← hchunks, remarks, commentsIn, hitems, hsqueeze]
    cases phrases with
    | nil => rfl
    | cons phrase phrases => simp

/-- The section in a draft, under its heading. -/
def part (chapter : Chapter) : Part where
  heading := chapter.kind.heading
  name := chapter.kind.title.toList
  content := chapter.content
  isLine := chapter.kind.isLine_heading
  isHeading := chapter.kind.heading?_heading
  isNamed := by rw [Section.ofHeading_title, kind_content]

end Chapter

namespace Outline

/-- The review as it is written. -/
def text (outline : Outline) : List Char := Chars.join ['\n'] (outline.flatMap Chapter.lines)

/-- The issues of the review. -/
def entries (outline : Outline) : List Entry := outline.flatMap Chapter.entries

/-- The comments of the review. -/
def remarks (outline : Outline) : List String := outline.flatMap Chapter.remarks

/-- The review as a draft. -/
def draft (outline : Outline) : Draft := ⟨[], outline.map Chapter.part, noSection_nil⟩

theorem text_draft (outline : Outline) : outline.draft.text = outline.text := by
  have hlines : outline.draft.parts.flatMap (fun part => part.heading :: part.content.chunks) =
      outline.flatMap Chapter.lines := by
    rw [draft, List.flatMap_map]
    exact List.flatMap_congr fun chapter _ => congrArg _ chapter.chunks_content
  exact congrArg _ hlines

theorem entries_draft (outline : Outline) : outline.draft.entries = outline.entries := by
  rw [Draft.entries, draft, List.flatMap_map]
  exact List.flatMap_congr fun chapter _ => chapter.entries_content

theorem remarks_draft (outline : Outline) : outline.draft.remarks = outline.remarks := by
  rw [Draft.remarks, draft, List.flatMap_map]
  exact List.flatMap_congr fun chapter _ => chapter.remarks_content

theorem exists_finding_of_mem_points {outline : Outline} {point : Point} (h : point ∈ outline.draft.points) :
    ∃ finding : Finding, point = finding.point := by
  obtain ⟨part, hpart, hpoint⟩ := List.mem_flatMap.1 h
  obtain ⟨chapter, -, rfl⟩ := List.mem_map.1 hpart
  obtain ⟨run, hrun, hpoint⟩ := List.mem_flatMap.1 hpoint
  cases chapter with
  | comments => exact nomatch hrun
  | issues category groups =>
    obtain rfl | hrun := List.mem_cons.1 hrun
    · exact nomatch hpoint
    · obtain ⟨laidOut, hlaidOut, rfl⟩ := List.mem_map.1 hrun
      obtain ⟨group, -, rfl⟩ := List.mem_map.1 hlaidOut
      obtain ⟨finding, -, rfl⟩ := List.mem_map.1 hpoint
      exact ⟨finding, rfl⟩

theorem isSound_draft (outline : Outline) : outline.draft.IsSound := by
  intro point hpoint block hblock
  obtain ⟨finding, rfl⟩ := exists_finding_of_mem_points hpoint
  exact nomatch hblock

theorem not_hasLongMark_draft (outline : Outline) :
    ∀ point ∈ outline.draft.points, ¬ Bullet.HasLongMark point.around := by
  intro point hpoint
  obtain ⟨finding, rfl⟩ := exists_finding_of_mem_points hpoint
  exact finding.not_hasLongMark_point

/-- An outline is read as a review that lists its findings and comments, in their order; sections and groups
that come again are put together. -/
theorem exists_lists_of_text (outline : Outline) : ∃ review : Review,
    read? outline.text = .ok (if outline.isEmpty then none else some review.fields) ∧
      read? (outline.text ++ ['\n']) = read? outline.text ∧
      review.Lists outline.entries outline.remarks := by
  by_cases h : outline = []
  · subst h
    exact ⟨{}, rfl, read?_newline _, .empty⟩
  · have hparts : outline.draft.parts ≠ [] := by simpa [draft] using h
    obtain ⟨review, hread, hlists⟩ := outline.draft.exists_lists_of_isSound hparts outline.isSound_draft
      outline.not_hasLongMark_draft
    rw [text_draft] at hread
    rw [entries_draft, remarks_draft] at hlists
    exact ⟨review, by rw [hread, if_neg (by simpa using h)], read?_newline _, hlists⟩

-- a title may look like a tag, a mark or a heading, and a comment like a bullet
example : Outline.text [
    .issues .errors [{
      path := ⟨"a.py".toList, by decide, by decide, by decide⟩
      findings := [{
        severity := "HIGH".toList, first := 3, last := some 5
        title := ⟨"[LOW] Line 9: ## Errors".toList, by decide, by decide, by decide⟩
        severity_ne_nil := by decide, isUpper := by decide, first_digits := by decide
        last_digits := by decide, noEdge := by rintro c (⟨⟨⟩⟩ | ⟨⟨⟩⟩) <;> decide }]
      noMark := by rintro c (⟨⟨⟩⟩ | ⟨⟨⟩⟩) <;> decide }],
    .comments [⟨"- fine".toList, by decide, by decide, by decide⟩]] =
    "## Errors\n### a.py\n- [HIGH] Lines 3-5: [LOW] Line 9: ## Errors\n## General Comments\n- - fine".toList := by
  decide

end Outline

end Markdown

end CodeReview.Response
