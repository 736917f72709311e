import CodeReview.Proofs.Number.Reading
import CodeReview.Proofs.Response.Issues
import CodeReview.Proofs.Text.Case
import CodeReview.Proofs.Text.Scan
import CodeReview.Response.Markdown
import Mathlib.Data.List.TakeDrop
import Mathlib.Data.Option.Basic

/-!
# What breaks off a review in running text

A review in running text is read to its end unless one of two things is in it:

* a section heading with a letter that only resembles the one of the name (`succeeds_ofHeading_iff`),
* a bullet of a category whose mark of lines has a number of too many digits
  (`Bullet.succeeds_issue_iff`).

`succeeds_read?_iff` says so of the whole text. What is read holds no infinite number
(`allFinite_of_read?`).
-/

namespace CodeReview.Response

open Number Scan Text

/-! ## Marks of lines -/

namespace Bullet

/-- The digits of the first mark of lines in a bullet: of the first line, and of the last if there is
a range. -/
def mark? (bullet : List Char) : Option (List Char × Option (List Char)) :=
  (findFirst? lineMark? (takeTag (takeCode bullet).2).2).map (·.2.1)

/-- The mark of lines in a bullet has a number of too many digits. -/
def HasLongMark (bullet : List Char) : Prop :=
  ∃ first last, mark? bullet = some (first, last) ∧
    (digitLimit < first.length ∨ ∃ digits, last = some digits ∧ digitLimit < digits.length)

section Marks

variable {cs rest : List Char}

theorem isDigits_of_run? {digits : List Char} (h : run? isDigit cs = some (digits, rest)) :
    IsDigits digits := by
  obtain ⟨hne, hdigits, -⟩ := eq_of_run? h
  exact ⟨hne, hdigits⟩

theorem isDigits_of_rangeEnd? {digits : List Char} (h : rangeEnd? cs = some (digits, rest)) :
    IsDigits digits := by
  rw [rangeEnd?] at h
  split at h
  · split at h
    · exact isDigits_of_run? h
    · exact nomatch h
  · exact nomatch h

theorem isDigits_of_lastLine {behind digits : List Char} (h : (match rangeEnd? behind with
    | some (last, rest) => (some last, rest)
    | none => (none, behind)).1 = some digits) : IsDigits digits := by
  split at h
  · next hrange =>
    obtain rfl := Option.some.inj h
    exact isDigits_of_rangeEnd? hrange
  · cases h

theorem isDigits_of_lineMark? {ahead : Option Char} {first : List Char} {last : Option (List Char)}
    (h : lineMark? ahead cs = some ((first, last), rest)) :
    IsDigits first ∧ ∀ digits, last = some digits → IsDigits digits := by
  unfold lineMark? at h
  split at h
  · simp only [Option.bind_eq_bind, Option.bind_eq_some_iff, Option.pure_def,
      Option.some.injEq, Prod.mk.injEq] at h
    obtain ⟨_, _, _, _, _, _, digits, hrun, ⟨rfl, rfl⟩, _⟩ := h
    exact ⟨isDigits_of_run? hrun, fun _ => isDigits_of_lastLine⟩
  · split at h
    · simp only [Option.bind_eq_bind, Option.bind_eq_some_iff, Option.pure_def,
        Option.some.injEq, Prod.mk.injEq] at h
      obtain ⟨_, _, _, _, _, _, digits, hrun, ⟨rfl, rfl⟩, _⟩ := h
      exact ⟨isDigits_of_run? hrun, fun _ => isDigits_of_lastLine⟩
    · cases h

theorem succeeds_lineNumber_iff {digits : List Char} (h : IsDigits digits) :
    Succeeds (lineNumber digits) ↔ ¬ digitLimit < digits.length := by
  have hread := readInteger_digits h
  rw [lineNumber]
  split at hread
  · next hlong =>
    rw [hread]
    exact iff_of_false (fun hok => nomatch hok) (not_not_intro hlong)
  · next hshort =>
    obtain ⟨n, hn⟩ := hread
    rw [hn]
    exact iff_of_true (.pure n) hshort

end Marks

/-- A bullet is read as an issue unless its mark of lines is too long. -/
theorem succeeds_issue_iff {bullet : List Char} : Succeeds (issue bullet) ↔ ¬ HasLongMark bullet := by
  have hissue : Succeeds (issue bullet) ↔
      Succeeds (takeLines (takeTag (takeCode bullet).2).2) := by
    rw [issue]
    exact Succeeds.bind_pure_iff _
  rw [hissue, takeLines, HasLongMark, mark?]
  split
  · next hnone =>
    rw [hnone]
    exact iff_of_true (.pure _) nofun
  · next before first last after hfound =>
    obtain ⟨ahead, here, hmark⟩ := exists_of_findFirst? hfound
    obtain ⟨hfirst, hlast⟩ := isDigits_of_lineMark? hmark
    rw [hfound, Succeeds.bind_iff
      (p := ∀ digits, last = some digits → ¬ digitLimit < digits.length)]
    · rw [succeeds_lineNumber_iff hfirst]
      simp
    · intro n
      cases last with
      | none => exact iff_of_true (.pure _) nofun
      | some digits =>
        rw [Succeeds.bind_pure_iff, succeeds_lineNumber_iff (hlast digits rfl)]
        simp

end Bullet

namespace Markdown

/-! ## Headings -/

/-- Every letter of a name of a section is a small letter of ASCII other than `k`. -/
theorem letters_of_names {name : String × Section} (h : name ∈ Section.names) :
    ∀ letter ∈ name.1.toList, letter.toNat < 128 ∧ letter.toLower = letter ∧ letter ≠ 'k' := by
  have hall : Section.names.all (fun name => name.1.toList.all fun letter =>
      decide (letter.toNat < 128 ∧ letter.toLower = letter ∧ letter ≠ 'k')) = true := by
    decide
  intro letter hletter
  exact of_decide_eq_true (List.all_eq_true.1 (List.all_eq_true.1 hall name h) letter hletter)

theorem forall₂_of_wordIgnoringCase? {word : String} {cs rest : List Char}
    (h : wordIgnoringCase? word cs = some rest) :
    List.Forall₂ (sameLetter · · = true) word.toList (cs.take word.length) := by
  have hgo (letters cs : List Char) (h : wordIgnoringCase?.go letters cs = some rest) :
      List.Forall₂ (sameLetter · · = true) letters (cs.take letters.length) := by
    induction letters generalizing cs with
    | nil => exact .nil
    | cons letter letters ih =>
      cases cs with
      | nil => exact nomatch h
      | cons c cs =>
        rw [wordIgnoringCase?.go] at h
        split at h
        · next hsame => exact .cons hsame (ih cs h)
        · exact nomatch h
  exact String.length_toList ▸ hgo word.toList cs h

/-- A heading resembles the name of a section letter by letter. -/
theorem exists_name_of_heading? {line heading : List Char} (h : heading? line = some heading) :
    ∃ name ∈ Section.names, List.Forall₂ (sameLetter · · = true) name.1.toList heading := by
  unfold heading? at h
  simp only [Option.bind_eq_bind, Option.bind_eq_some_iff] at h
  obtain ⟨rest, -, -, -, ⟨name, after⟩, hname, -, -, hheading⟩ := h
  obtain rfl := Option.some.inj hheading
  obtain ⟨known, hknown, hword⟩ := List.exists_of_findSome?_eq_some hname
  obtain ⟨behind, hbehind, heq⟩ := Option.map_eq_some_iff.1 hword
  obtain ⟨rfl, -⟩ := Prod.mk.inj heq
  exact ⟨known, hknown, forall₂_of_wordIgnoringCase? hbehind⟩

theorem lookup_names_eq_none {name : String} (h : ∃ c ∈ name.toList, 128 ≤ c.toNat) :
    Section.names.lookup name = none := by
  obtain ⟨c, hc, hbeyond⟩ := h
  cases hfound : Section.names.lookup name with
  | none => rfl
  | some found =>
    obtain ⟨before, after, hnames, -⟩ := List.lookup_eq_some_iff.1 hfound
    have hmem : (name, found) ∈ Section.names := by simp [hnames]
    have := (letters_of_names hmem c hc).1
    omega

/-- A heading names a section exactly if it is in ASCII. -/
theorem succeeds_ofHeading_iff {line heading : List Char} (h : heading? line = some heading) :
    Succeeds (Section.ofHeading heading) ↔ ∀ c ∈ heading, c.toNat < 128 := by
  obtain ⟨name, hname, hsame⟩ := exists_name_of_heading? h
  have hletters := letters_of_names hname
  by_cases hascii : ∀ c ∈ heading, c.toNat < 128
  · have hknown : ∀ name ∈ Section.names, Section.names.lookup name.1 = some name.2 := by decide
    rw [Section.ofHeading, lower_of_forall₂ (fun letter hletter => (hletters letter hletter).2.1)
      hsame hascii, String.ofList_toList, hknown name hname]
    exact iff_of_true ⟨name.2, rfl⟩ hascii
  · have hbeyond : ∃ c ∈ heading, c = 'İ' ∨ c = 'ı' ∨ c = 'ſ' := by
      simp only [not_forall, Nat.not_lt] at hascii
      obtain ⟨c, hc, hascii⟩ := hascii
      obtain ⟨i, hi, rfl⟩ := List.mem_iff_getElem.1 hc
      have hi' : i < name.1.toList.length := hsame.length_eq ▸ hi
      have hletter := hletters _ (List.getElem_mem hi')
      exact ⟨_, hc, eq_of_sameLetter hletter.1 hletter.2.2 hascii (hsame.get hi' hi)⟩
    obtain ⟨c, hc, hlike⟩ := hbeyond
    have hlower : ∃ d ∈ (String.ofList (lower heading)).toList, 128 ≤ d.toNat := by
      rw [String.toList_ofList]
      exact exists_mem_lower hc hlike
    rw [Section.ofHeading, lookup_names_eq_none hlower]
    exact iff_of_false (fun ⟨_, hok⟩ => nomatch hok) hascii

/-! ## Sections -/

/-- The bullets of a section with issues. -/
def bulletsIn (body : List Char) : List (List Char) :=
  let (front, parts) := partAt fileHeading? (Chars.lines body)
  ((generalGroup.toList, front) :: parts).flatMap fun (_, lines) => Bullet.items lines

/-- The sections of a text, each with its heading. -/
def sections (text : List Char) : List (List Char × List Char) :=
  (partAt heading? (Chars.splitOn '\n' text)).2.map fun (heading, lines) =>
    (heading, Chars.join ['\n'] lines)

/-- Reading a section breaks off. -/
inductive SectionBreaks (heading body : List Char) : Prop
  /-- A letter of the heading only resembles the one of the name. -/
  | lookAlike {c : Char} (hc : c ∈ heading) (hbeyond : 128 ≤ c.toNat)
  /-- A mark of lines has a number of too many digits. -/
  | longMark {category : Category} (hname : Section.ofHeading heading = .ok (.issues category))
    {bullet : List Char} (hbullet : bullet ∈ bulletsIn body) (hlong : Bullet.HasLongMark bullet)

theorem partAt_cons (heading? : List Char → Option (List Char)) (line : List Char)
    (lines : List (List Char)) : partAt heading? (line :: lines) =
      match heading? line with
      | some heading => ([], (heading, (partAt heading? lines).1) :: (partAt heading? lines).2)
      | none => (line :: (partAt heading? lines).1, (partAt heading? lines).2) := rfl

theorem mem_partAt {heading? : List Char → Option (List Char)} {lines : List (List Char)}
    {part : List Char × List (List Char)} (h : part ∈ (partAt heading? lines).2) :
    ∃ line ∈ lines, heading? line = some part.1 := by
  induction lines with
  | nil => exact nomatch h
  | cons line lines ih =>
    have hrest (h : part ∈ (partAt heading? lines).2) :
        ∃ other ∈ line :: lines, heading? other = some part.1 := by
      obtain ⟨other, hother, hheading⟩ := ih h
      exact ⟨other, List.mem_cons_of_mem line hother, hheading⟩
    rw [partAt_cons] at h
    split at h
    · next heading hheading =>
      rcases List.mem_cons.1 h with rfl | h
      · exact ⟨line, List.mem_cons_self, hheading⟩
      · exact hrest h
    · exact hrest h

theorem succeeds_issuesByGroup_iff {body : List Char} : Succeeds (issuesByGroup body) ↔
    ∀ bullet ∈ bulletsIn body, ¬ Bullet.HasLongMark bullet := by
  rw [issuesByGroup, bulletsIn]
  obtain ⟨front, parts⟩ := partAt fileHeading? (Chars.lines body)
  dsimp only
  generalize (generalGroup.toList, front) :: parts = parts
  have hbullets : parts.foldl (fun (groups : Keyed (List (List Char))) (path, lines) =>
      groups.extend (String.ofList path) (Bullet.items lines)) [] =
        Keyed.extendAll [] (parts.map fun part => (String.ofList part.1, Bullet.items part.2)) := by
    rw [Keyed.extendAll, List.foldl_map]
  rw [hbullets, Succeeds.bind_pure_iff, Succeeds.mapM_iff]
  simp only [Succeeds.bind_pure_iff, Succeeds.mapM_iff, Bullet.succeeds_issue_iff]
  have hmem (bullet : List Char) : (∃ entry ∈ Keyed.extendAll []
      (parts.map fun part => (String.ofList part.1, Bullet.items part.2)), bullet ∈ entry.2) ↔
      bullet ∈ parts.flatMap fun (_, lines) => Bullet.items lines := by
    rw [Keyed.mem_extendAll]
    simp
  exact ⟨fun h bullet hbullet => by
      obtain ⟨entry, hentry, hbullet⟩ := (hmem bullet).2 hbullet
      exact h entry hentry bullet hbullet,
    fun h entry hentry bullet hbullet => h bullet ((hmem bullet).1 ⟨entry, hentry, hbullet⟩)⟩

theorem succeeds_add_iff {review : Review} {line heading body : List Char}
    (h : heading? line = some heading) :
    Succeeds (review.add heading body) ↔ ¬ SectionBreaks heading body := by
  have hascii := succeeds_ofHeading_iff h
  rw [Review.add]
  cases hname : Section.ofHeading heading with
  | error failure =>
    rw [hname] at hascii
    have hfails : ¬ ∀ c ∈ heading, c.toNat < 128 := fun h => nomatch hascii.2 h
    simp only [not_forall, Nat.not_lt] at hfails
    obtain ⟨c, hc, hbeyond⟩ := hfails
    exact iff_of_false (fun ⟨_, hok⟩ => nomatch hok) (not_not_intro (.lookAlike hc hbeyond))
  | ok named =>
    have hletters := hascii.1 ⟨named, hname⟩
    have hbreaks : SectionBreaks heading body ↔ ∃ category, named = .issues category ∧
        ∃ bullet ∈ bulletsIn body, Bullet.HasLongMark bullet := by
      constructor
      · rintro (⟨hc, hbeyond⟩ | ⟨hcategory, hbullet, hlong⟩)
        · exact absurd (hletters _ hc) (Nat.not_lt.2 hbeyond)
        · exact ⟨_, Except.ok.inj (hname.symm.trans hcategory), _, hbullet, hlong⟩
      · rintro ⟨category, rfl, bullet, hbullet, hlong⟩
        exact .longMark hname hbullet hlong
    rw [hbreaks]
    cases named with
    | comments => exact iff_of_true ⟨_, rfl⟩ fun ⟨_, hnamed, _⟩ => nomatch hnamed
    | issues category =>
      change Succeeds (issuesByGroup body >>= fun groups => pure _) ↔ _
      rw [Succeeds.bind_pure_iff, succeeds_issuesByGroup_iff]
      simp

/-- A text is read to its end unless one of its sections breaks off. -/
theorem succeeds_read?_iff {text : List Char} : Succeeds (read? text) ↔
    ∀ part ∈ sections text, ¬ SectionBreaks part.1 part.2 := by
  have hparts : Succeeds (read? text) ↔
      Succeeds ((sections text).foldlM (fun review part => review.add part.1 part.2) ({} : Review)) := by
    rw [read?, sections, List.foldlM_map]
    split
    · next hnone =>
      rw [hnone]
      exact iff_of_true ⟨_, rfl⟩ ⟨_, rfl⟩
    · exact Succeeds.bind_pure_iff _
  rw [hparts, Succeeds.foldlM_iff]
  intro review part hpart
  obtain ⟨found, hfound, rfl⟩ := List.mem_map.1 hpart
  obtain ⟨line, -, hline⟩ := mem_partAt hfound
  exact succeeds_add_iff hline

/-! ## What is read -/

/-- Reading running text never fails for want of structure. -/
theorem failsWith_read? (text : List Char) : FailsWith (·.kind ≠ .parse) (read? text) := by
  have hnumber (digits : List Char) : FailsWith (·.kind ≠ .parse) (Bullet.lineNumber digits) := by
    intro failure h
    rw [Bullet.lineNumber] at h
    split at h
    · exact nomatch h
    · exact Except.error.inj h ▸ nofun
    · exact Except.error.inj h ▸ nofun
  have hlines (cs : List Char) : FailsWith (·.kind ≠ .parse) (Bullet.takeLines cs) := by
    rw [Bullet.takeLines]
    split
    · exact .pure _
    · next last _ _ =>
      refine (hnumber _).bind fun first => ?_
      cases last with
      | none => exact .pure _
      | some digits => exact (hnumber digits).bind fun _ => .pure _
  have hissue (bullet : List Char) : FailsWith (·.kind ≠ .parse) (Bullet.issue bullet) :=
    (hlines _).bind fun _ => .pure _
  have hgroups (body : List Char) : FailsWith (·.kind ≠ .parse) (issuesByGroup body) :=
    (FailsWith.mapM (fun _ => (FailsWith.mapM hissue _).bind fun _ => .pure _) _).bind
      fun _ => .pure _
  have hheading (heading : List Char) :
      FailsWith (·.kind ≠ .parse) (Section.ofHeading heading) := by
    intro failure h
    rw [Section.ofHeading] at h
    split at h
    · exact nomatch h
    · exact Except.error.inj h ▸ nofun
  have hadd (review : Review) (heading body : List Char) :
      FailsWith (·.kind ≠ .parse) (review.add heading body) := by
    refine (hheading heading).bind fun named => ?_
    cases named with
    | comments => exact .pure _
    | issues category => exact (hgroups body).bind fun _ => .pure _
  rw [read?]
  split
  · exact .pure none
  · refine FailsWith.bind (FailsWith.foldlM (fun review part => ?_) _ _) fun _ => .pure _
    exact hadd review part.1 (Chars.join ['\n'] part.2)

/-- Every issue of the review has finite numbers only. -/
def Review.IsFinite (review : Review) : Prop :=
  ∀ category, ∀ group ∈ review.issues.get category, ∀ issue ∈ group.2, AllFinite issue

theorem allFinite_of_issue {bullet : List Char} {fields : Fields}
    (h : Bullet.issue bullet = .ok fields) : AllFinite (.obj fields) := by
  obtain ⟨range, -, hfields⟩ := exists_of_bind_ok h
  obtain rfl := Except.ok.inj hfields
  have htext (s : Option String) : AllFinite (.ofText? s) := by
    cases s with
    | none => exact .null
    | some s => exact .str s
  have hint (n : Option Int) : AllFinite (.ofInt? n) := by
    cases n with
    | none => exact .null
    | some n => exact .int n
  refine .obj fun field hfield => ?_
  simp only [List.mem_cons, List.not_mem_nil, or_false] at hfield
  rcases hfield with rfl | rfl | rfl | rfl | rfl
  · exact .str _
  · exact hint _
  · exact hint _
  · exact htext _
  · exact htext _

theorem allFinite_of_issuesByGroup {body : List Char} {groups : Keyed (List Json)}
    (h : issuesByGroup body = .ok groups) :
    ∀ group ∈ groups, ∀ issue ∈ group.2, AllFinite issue := by
  obtain ⟨found, hfound, hgroups⟩ := exists_of_bind_ok h
  obtain rfl := Except.ok.inj hgroups
  intro group hgroup issue hissue
  obtain ⟨⟨path, bullets⟩, -, hbullets⟩ :=
    exists_of_mem_mapM_ok hfound (List.mem_filter.1 hgroup).1
  obtain ⟨issues, hissues, hgroup⟩ := exists_of_bind_ok hbullets
  obtain rfl := Except.ok.inj hgroup
  obtain ⟨fields, hfields, rfl⟩ := List.mem_map.1 hissue
  obtain ⟨bullet, -, hbullet⟩ := exists_of_mem_mapM_ok hissues hfields
  exact allFinite_of_issue hbullet

theorem Review.IsFinite.add {review next : Review} (hreview : review.IsFinite)
    {heading body : List Char} (h : review.add heading body = .ok next) : next.IsFinite := by
  obtain ⟨named, -, hnamed⟩ := exists_of_bind_ok h
  cases named with
  | comments => exact Except.ok.inj hnamed ▸ hreview
  | issues category =>
    obtain ⟨groups, hgroups, hnext⟩ := exists_of_bind_ok hnamed
    obtain rfl := Except.ok.inj hnext
    intro other
    dsimp only
    rw [ByCategory.get_modify]
    split
    · intro group hgroup issue hissue
      change group ∈ Keyed.extendAll _ groups at hgroup
      rcases Keyed.mem_extendAll.1 ⟨group, hgroup, hissue⟩ with ⟨old, hold, hissue⟩ |
        ⟨new, hnew, hissue⟩
      · exact hreview other old hold issue hissue
      · exact allFinite_of_issuesByGroup hgroups new hnew issue hissue
    · exact hreview other

/-- What is read from running text holds finite numbers only. -/
theorem allFinite_of_read? {text : List Char} {fields : Fields} (h : read? text = .ok (some fields)) :
    AllFinite (.obj fields) := by
  rw [read?] at h
  split at h
  · exact nomatch h
  · obtain ⟨review, hreview, hfields⟩ := exists_of_bind_ok h
    obtain rfl := Option.some.inj (Except.ok.inj hfields)
    have hfinite : review.IsFinite := by
      refine invariant_of_foldlM_ok (fun part _ _ _ hfinite hadd => hfinite.add hadd) ?_ hreview
      intro category group hgroup
      rw [ByCategory.get_const] at hgroup
      exact nomatch hgroup
    refine .obj fun field hfield => ?_
    rcases List.mem_append.1 hfield with hfield | hfield
    · obtain ⟨category, -, rfl⟩ := List.mem_map.1 hfield
      refine .obj fun entry hentry => ?_
      obtain ⟨group, hgroup, rfl⟩ := List.mem_map.1 hentry
      exact .arr (hfinite category group hgroup)
    · obtain rfl := List.mem_singleton.1 hfield
      refine .arr fun comment hcomment => ?_
      obtain ⟨text, -, rfl⟩ := List.mem_map.1 hcomment
      exact .str text

end Markdown
end CodeReview.Response
