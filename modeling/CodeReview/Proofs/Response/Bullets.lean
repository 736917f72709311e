import CodeReview.Proofs.Response.Sections
import CodeReview.Proofs.Text.Lines

/-!
# Bullets line by line

* `Progress`: what each kind of line does to the bullets that have been read. Lines of a text outside of
  fences are plain (`IsPlain`) unless they start a bullet.
* `items_concat_nil`: an empty line at the end of a section does not count.
* `issue_of_block`: an issue with a code block is the issue that the text around the block describes, with
  the code.
-/

namespace CodeReview

open Text

namespace Chars

variable {c : Char} {cs front : List Char} {parts others : List (List Char)}

/-- Lines, each with a line feed behind it. -/
def ended (parts : List (List Char)) : List Char := parts.flatMap (· ++ ['\n'])

theorem join_append_cons (parts : List (List Char)) (part : List Char) (others : List (List Char)) :
    join ['\n'] (parts ++ part :: others) = ended parts ++ join ['\n'] (part :: others) := by
  induction parts with
  | nil => rfl
  | cons first parts ih =>
    rw [List.cons_append, join_cons (by simp), ih]
    simp [ended]

theorem ended_eq_join (h : parts ≠ []) : ended parts = join ['\n'] parts ++ ['\n'] := by
  rw [← join_concat_nil ['\n'] h, join_append_cons, join_singleton, List.append_nil]

theorem trimEnd_newline_join (parts : List (List Char)) :
    trimEnd (· == '\n') (ended parts) = trimEnd (· == '\n') (join ['\n'] parts) := by
  by_cases h : parts = []
  · subst h
    rfl
  · rw [ended_eq_join h, trimEnd, List.reverse_concat, List.dropWhile_cons_of_pos (by rfl), trimEnd]

/-- Nothing is dropped in front of the last character that stays. -/
theorem trimEnd_append_of_getLast? {p : Char → Bool} (h : front.getLast? = some c) (hc : p c = false)
    (cs : List Char) : trimEnd p (front ++ cs) = front ++ trimEnd p cs := by
  obtain ⟨before, rfl⟩ := List.getLast?_eq_some_iff.1 h
  unfold trimEnd
  rw [List.reverse_append, List.dropWhile_append]
  split
  · next hall =>
    rw [List.isEmpty_iff.1 hall, List.reverse_concat, List.dropWhile_cons_of_neg (by simp [hc])]
    simp
  · simp

theorem trimEnd_infix {p : Char → Bool} : trimEnd p cs <:+: cs := by
  apply List.IsPrefix.isInfix
  rw [← List.reverse_suffix, trimEnd, List.reverse_reverse]
  exact List.dropWhile_suffix p

theorem trim_infix (cs : List Char) : trim cs <:+: cs := by
  obtain ⟨before, after, hcs, -, -⟩ := exists_trim cs
  exact ⟨before, after, hcs.symm⟩

end Chars

namespace Response.Bullet

open Scan

variable {line text tag code before after : List Char} {lines : List (List Char)}
  {last : List (List Char)} {bullets : List (List (List Char))}

/-! ## Lines -/

/-- A line that neither starts a bullet nor has a fence in it. -/
structure IsPlain (line : List Char) : Prop where
  noBullet : text? line = none
  noFence : Chars.hasPart fence line = false

/-- The line of a bullet: a mark, white space, and the text. -/
theorem exists_of_text? (h : text? line = some text) : ∃ mark space rest,
    blanks line = mark :: space :: rest ∧ (mark = '-' ∨ mark = '*') ∧ text = blanks rest := by
  unfold text? at h
  split at h
  · next mark rest hline =>
    split at h
    · next hmark =>
      cases rest with
      | nil => cases h
      | cons space rest =>
        rw [someBlanks?] at h
        split at h
        · exact ⟨mark, space, rest, hline, by simpa using hmark, (Option.some.inj h).symm⟩
        · cases h
    · cases h
  · cases h

theorem suffix_of_text? (h : text? line = some text) : text <:+ line := by
  obtain ⟨mark, space, rest, hline, -, rfl⟩ := exists_of_text? h
  have hrest : rest <:+ blanks line := ⟨[mark, space], hline.symm⟩
  exact ((List.dropWhile_suffix isBlank).trans hrest).trans (List.dropWhile_suffix isBlank)

theorem head?_of_text? (h : text? line = some text) : line.head? ≠ some '#' := by
  intro hhash
  obtain ⟨rest, rfl⟩ := List.head?_eq_some_iff.1 hhash
  obtain ⟨mark, space, rest, hline, hmark, -⟩ := exists_of_text? h
  have hstart : '#' = mark := (List.cons.inj hline).1
  subst hstart
  exact absurd hmark (by decide)

theorem not_isFence_of_hasPart (h : Chars.hasPart fence line = false) :
    fence.isPrefixOf (Chars.trim line) = false := by
  by_contra hfence
  rw [Bool.not_eq_false, List.isPrefixOf_iff_prefix] at hfence
  have hpart := Chars.hasPart_iff.2 (hfence.isInfix.trans (Chars.trim_infix line))
  rw [h] at hpart
  exact nomatch hpart

theorem isFence_of_start (h : fence <+: line) : fence.isPrefixOf (Chars.trim line) = true := by
  obtain ⟨rest, rfl⟩ := h
  have hstart : Chars.trimStart isBlank (fence ++ rest) = fence ++ rest := rfl
  rw [Chars.trim, Chars.trimBoth, hstart, Chars.trimEnd_append_of_getLast? rfl (by decide)]
  exact List.isPrefixOf_iff_prefix.2 ⟨_, rfl⟩

namespace Progress

theorem read_bullet (htext : text? line = some text) (hfence : Chars.hasPart fence line = false)
    (bullets : List (List (List Char))) :
    read { bullets, inFence := false } line = { bullets := [text] :: bullets, inFence := false } := by
  unfold read
  rw [not_isFence_of_hasPart hfence, htext]
  rfl

theorem read_plain (h : IsPlain line) (progress : Progress) (hout : progress.inFence = false) :
    read progress line = if Chars.isBlankText line then progress else progress.continued line := by
  unfold read
  rw [not_isFence_of_hasPart h.noFence, h.noBullet, hout]
  rfl

theorem read_fence (h : fence <+: line) (inFence : Bool) :
    read { bullets := last :: bullets, inFence } line =
      { bullets := (line :: last) :: bullets, inFence := !inFence } := by
  unfold read
  rw [isFence_of_start h]
  rfl

/-- Plain lines in front of the first bullet do not count. -/
theorem foldl_read_front (h : ∀ line ∈ lines, IsPlain line) : lines.foldl read {} = {} := by
  induction lines with
  | nil => rfl
  | cons line lines ih =>
    have hline : read {} line = {} := by
      rw [read_plain (h line List.mem_cons_self) {} rfl]
      split <;> rfl
    rw [List.foldl_cons, hline]
    exact ih fun other hother => h other (List.mem_cons_of_mem line hother)

/-- Of the plain lines behind a bullet those count that are not blank. -/
theorem foldl_read_plain (h : ∀ line ∈ lines, IsPlain line) :
    lines.foldl read { bullets := last :: bullets, inFence := false } =
      { bullets := ((lines.filter (!Chars.isBlankText ·)).reverse ++ last) :: bullets,
        inFence := false } := by
  induction lines generalizing last with
  | nil => rfl
  | cons line lines ih =>
    have hrest : ∀ line ∈ lines, IsPlain line := fun other hother =>
      h other (List.mem_cons_of_mem line hother)
    rw [List.foldl_cons, read_plain (h line List.mem_cons_self) _ rfl, List.filter_cons]
    by_cases hblank : Chars.isBlankText line = true
    · rw [if_pos hblank, if_neg (by simp [hblank])]
      exact ih hrest
    · rw [if_neg hblank, if_pos (by simp [hblank]), List.reverse_cons, List.append_assoc]
      exact ih hrest

/-- Inside of a fence every line counts. -/
theorem foldl_read_inside (h : ∀ line ∈ lines, Chars.hasPart fence line = false) :
    lines.foldl read { bullets := last :: bullets, inFence := true } =
      { bullets := (lines.reverse ++ last) :: bullets, inFence := true } := by
  induction lines generalizing last with
  | nil => rfl
  | cons line lines ih =>
    have hline : read { bullets := last :: bullets, inFence := true } line =
        { bullets := (line :: last) :: bullets, inFence := true } := by
      unfold read
      rw [not_isFence_of_hasPart (h line List.mem_cons_self)]
      rfl
    rw [List.foldl_cons, hline, List.reverse_cons, List.append_assoc]
    exact ih fun other hother => h other (List.mem_cons_of_mem line hother)

end Progress

/-- An empty line at the end does not count. -/
theorem items_concat_nil (lines : List (List Char)) : items (lines ++ [[]]) = items lines := by
  unfold items
  rw [List.foldl_append, List.foldl_cons, List.foldl_nil]
  obtain ⟨bullets, inFence⟩ := lines.foldl Progress.read {}
  cases inFence with
  | false => rfl
  | true =>
    cases bullets with
    | nil => rfl
    | cons last before =>
      have hlast : Chars.trim (Chars.join ['\n'] ([] :: last).reverse) =
          Chars.trim (Chars.join ['\n'] last.reverse) := by
        rw [List.reverse_cons]
        by_cases hnil : last.reverse = []
        · rw [hnil]
          rfl
        · rw [Chars.join_concat_nil ['\n'] hnil]
          exact @Chars.trim_append _ [] ['\n'] nofun (by decide)
      have hread : Progress.read { bullets := last :: before, inFence := true } [] =
          { bullets := ([] :: last) :: before, inFence := true } := rfl
      rw [hread]
      simp only [List.reverse_cons, List.map_append, List.map_cons, List.map_nil, List.filter_append]
      simp only [List.reverse_cons] at hlast
      rw [hlast]

/-! ## Blocks -/

theorem cut?_ended {part : List Char} (hpart : '\n' ∉ part)
    (h : ∀ line ∈ lines, Chars.hasPart part line = false) (cs : List Char) :
    Chars.cut? part (Chars.ended lines ++ cs) =
      (Chars.cut? part cs).map fun found => (Chars.ended lines ++ found.1, found.2) := by
  induction lines with
  | nil => simp [Chars.ended]
  | cons line lines ih =>
    have hended : Chars.ended (line :: lines) = line ++ '\n' :: Chars.ended lines := by
      simp [Chars.ended]
    rw [hended, List.append_assoc, List.cons_append,
      Chars.cut?_append hpart (h line List.mem_cons_self),
      ih fun other hother => h other (List.mem_cons_of_mem line hother), Option.map_map]
    simp [Function.comp_def]

theorem cut?_fence (rest : List Char) : Chars.cut? fence (fence ++ rest) = some ([], rest) :=
  Chars.cut?_of_dropPrefix? (Chars.dropPrefix?_eq_some_iff.2 rfl)

/-- A code block is taken out of the text around it. -/
theorem takeCode_of_block (hbefore : Chars.hasPart fence before = false)
    (htag : ∀ c ∈ tag, isTagChar c = true) (hcode : ∀ line ∈ lines, Chars.hasPart fence line = false) :
    takeCode (before ++ '\n' :: (fence ++ (tag ++ '\n' :: (Chars.ended lines ++ (fence ++ after))))) =
      (some (Chars.trimEnd (· == '\n') (Chars.ended lines)), before ++ '\n' :: after) := by
  have hcontent (rest : List Char) : (tag ++ '\n' :: rest).dropWhile isTagChar = '\n' :: rest := by
    rw [List.dropWhile_append_of_pos htag, List.dropWhile_cons_of_neg (by decide)]
  unfold takeCode
  rw [Chars.cut?_append (by decide) hbefore, cut?_fence]
  dsimp only [Option.map_some]
  rw [hcontent, char?, if_pos (by rfl), Option.getD_some, cut?_ended (by decide) hcode, cut?_fence]
  simp

/-- A block that does not end is no block. -/
theorem takeCode_of_open (hbefore : Chars.hasPart fence before = false)
    (hafter : Chars.hasPart fence after = false) :
    (takeCode (before ++ '\n' :: (fence ++ after))).1 = none := by
  have hsuffix (cs : List Char) : (char? '\n' cs).getD cs <:+ cs := by
    cases cs with
    | nil => exact List.suffix_rfl
    | cons c cs =>
      rw [char?]
      split
      · exact List.suffix_cons c cs
      · exact List.suffix_rfl
  have hinner := Chars.hasPart_of_infix hafter
    ((hsuffix (after.dropWhile isTagChar)).trans (List.dropWhile_suffix isTagChar)).isInfix
  have hnone : Chars.cut? fence ((char? '\n' (after.dropWhile isTagChar)).getD
      (after.dropWhile isTagChar)) = none := by
    rw [← Option.not_isSome_iff_eq_none, Chars.isSome_cut?, hinner]
    exact Bool.false_ne_true
  unfold takeCode
  rw [Chars.cut?_append (by decide) hbefore, cut?_fence]
  dsimp only [Option.map_some]
  rw [hnone]

theorem takeCode_eq_self (h : Chars.hasPart fence text = false) : takeCode text = (none, text) := by
  have hcut : Chars.cut? fence text = none := by
    rw [← Option.not_isSome_iff_eq_none, Chars.isSome_cut?, h]
    exact Bool.false_ne_true
  rw [takeCode, hcut]

/-- The field of an issue that holds its code. -/
def codeKey : String := "codeSnippet"

/-- The issue of a bullet with a block is the one of the text around the block, with the code. -/
theorem issue_of_block (hbefore : Chars.hasPart fence before = false)
    (htag : ∀ c ∈ tag, isTagChar c = true) (hcode : ∀ line ∈ lines, Chars.hasPart fence line = false)
    (hafter : Chars.hasPart fence after = false) :
    issue (before ++ '\n' :: (fence ++ (tag ++ '\n' :: (Chars.ended lines ++ (fence ++ after))))) =
      (issue (before ++ '\n' :: after)).map fun fields => Keyed.put fields codeKey
        (.str (String.ofList (Chars.trimEnd (· == '\n') (Chars.ended lines)))) := by
  have haround : Chars.hasPart fence (before ++ '\n' :: after) = false := by
    rw [← Chars.isSome_cut?, Chars.cut?_append (by decide) hbefore, Option.isSome_map,
      Chars.isSome_cut?, hafter]
  unfold issue
  rw [takeCode_of_block hbefore htag hcode, takeCode_eq_self haround]
  dsimp only
  cases takeLines (takeTag (before ++ '\n' :: after)).2 with
  | error failure => rfl
  | ok found => rfl

theorem code_of_takeCode {fields : Fields} (hcode : (takeCode text).1 = none)
    (h : issue text = .ok fields) : Keyed.get? fields codeKey = some .null := by
  unfold issue at h
  obtain ⟨rest, htake⟩ : ∃ rest, takeCode text = (none, rest) := ⟨_, Prod.ext hcode rfl⟩
  rw [htake] at h
  obtain ⟨found, -, hfields⟩ := exists_of_bind_ok h
  rw [← Except.ok.inj hfields]
  rfl

/-- Without a block there is no code. -/
theorem put_codeKey_of_issue {fields : Fields} (hfence : Chars.hasPart fence text = false)
    (h : issue text = .ok fields) : Keyed.put fields codeKey .null = fields := by
  unfold issue at h
  rw [takeCode_eq_self hfence] at h
  obtain ⟨found, -, hfields⟩ := exists_of_bind_ok h
  rw [← Except.ok.inj hfields]
  rfl

end Response.Bullet

end CodeReview
