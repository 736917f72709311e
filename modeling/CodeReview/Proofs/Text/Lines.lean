import CodeReview.Proofs.Text.Chars

/-!
# Lines

* `lines_append`: the lines of a text are those in front of a line end and those behind it.
* `lines_newline`: a line feed at the end of a text adds an empty line at most.
* `lines_append_cons`: a line end of any kind cuts off the line in front of it.
* `infix_of_mem_lines`: every line stands in the text as it is.
* `splitOn_join_flatMap`: parts that are joined by a separator split where each of them splits.
-/

namespace CodeReview.Chars

open Text

variable {c : Char} {cs rest line part : List Char}

/-! ## Parts of a joined text -/

theorem join_singleton (separator part : List Char) : join separator [part] = part := by
  simp [join, List.intercalate]

theorem splitOn_join_flatMap (separator : Char) {parts : List (List Char)} (hne : parts ≠ []) :
    splitOn separator (join [separator] parts) = parts.flatMap (splitOn separator) := by
  induction parts with
  | nil => exact absurd rfl hne
  | cons part parts ih =>
    by_cases hparts : parts = []
    · simp [hparts, join_singleton]
    · rw [join_cons hparts, List.append_assoc, List.singleton_append, splitOn_append, ih hparts,
        List.flatMap_cons]

/-- Parts may be taken apart further before they are joined. -/
theorem join_flatMap_splitOn (separator : Char) {parts : List (List Char)} (hne : parts ≠ []) :
    join [separator] (parts.flatMap (splitOn separator)) = join [separator] parts := by
  rw [← splitOn_join_flatMap separator hne, join_splitOn]

/-- An empty part at the end adds a separator. -/
theorem join_concat_nil (separator : List Char) {parts : List (List Char)} (hne : parts ≠ []) :
    join separator (parts ++ [[]]) = join separator parts ++ separator := by
  induction parts with
  | nil => exact absurd rfl hne
  | cons part parts ih =>
    by_cases hparts : parts = []
    · simp [hparts, join, List.intercalate]
    · rw [List.cons_append, join_cons (by simp), join_cons hparts, ih hparts]
      simp

/-! ## Occurrences -/

theorem hasPart_iff : hasPart part cs = true ↔ part <:+: cs := by
  induction cs with
  | nil => simp [hasPart]
  | cons c cs ih =>
    rw [hasPart, Bool.or_eq_true, ih, List.infix_cons_iff, Option.isSome_iff_exists]
    simp only [dropPrefix?_eq_some_iff]
    exact or_congr_left (exists_congr fun rest => eq_comm)

/-- What does not occur in a text does not occur in what stands in it. -/
theorem hasPart_of_infix (h : hasPart part cs = false) (hline : line <:+: cs) :
    hasPart part line = false := by
  rw [← Bool.not_eq_true, hasPart_iff] at h ⊢
  exact fun hpart => h (hpart.trans hline)

/-! ## Lines -/

/-- What one more character in front makes of the lines of a text that starts with `next`. -/
def lineStep (c : Char) (next : Option Char) (parts : List (List Char)) : List (List Char) :=
  if c == '\r' && next == some '\n' then parts
  else if isLineEnd c then [] :: parts else joinFirst c parts

/-- A carriage return and a line feed are one line end. -/
theorem exists_of_paired (h : (c == '\r' && cs.head? == some '\n') = true) :
    c = '\r' ∧ ∃ rest, cs = '\n' :: rest := by
  simp only [Bool.and_eq_true, beq_iff_eq] at h
  exact ⟨h.1, List.head?_eq_some_iff.1 h.2⟩

theorem lines_nil : lines [] = [] := rfl

theorem lines_cons (c : Char) (cs : List Char) : lines (c :: cs) = lineStep c cs.head? (lines cs) := by
  unfold lines lineStep
  rw [dropPairedReturns]
  split
  · rfl
  · rw [List.foldr_cons]

theorem lineStep_of_not_end {next : Option Char} (h : isLineEnd c = false) (parts : List (List Char)) :
    lineStep c next parts = joinFirst c parts := by
  have hreturn : c ≠ '\r' := by
    rintro rfl
    exact absurd h (by decide)
  unfold lineStep
  rw [if_neg (by simp [hreturn]), if_neg (by simp [h])]

theorem lineStep_append {parts : List (List Char)} (h : parts ≠ []) (next : Option Char)
    (others : List (List Char)) : lineStep c next (parts ++ others) = lineStep c next parts ++ others := by
  obtain ⟨part, parts, rfl⟩ := List.exists_cons_of_ne_nil h
  unfold lineStep
  split
  · rfl
  · split <;> rfl

theorem lines_ne_nil (h : cs ≠ []) : lines cs ≠ [] := by
  induction cs with
  | nil => exact absurd rfl h
  | cons c cs ih =>
    rw [lines_cons, lineStep]
    split
    · next hpair =>
      apply ih
      rintro rfl
      simp at hpair
    · split
      · simp
      · exact joinFirst_ne_nil c _

/-- The text stops at the end of a line. -/
def EndsLine (cs : List Char) : Prop := cs.getLast?.all isLineEnd = true

instance (cs : List Char) : Decidable (EndsLine cs) := inferInstanceAs (Decidable (_ = true))

theorem endsLine_concat_newline (cs : List Char) : EndsLine (cs ++ ['\n']) := by
  unfold EndsLine
  rw [List.getLast?_concat]
  decide

/-- The lines on both sides of a line end, if that is no pair of characters with one on each side. -/
theorem lines_append (hends : EndsLine cs) (hpair : cs.getLast? ≠ some '\r' ∨ rest.head? ≠ some '\n') :
    lines (cs ++ rest) = lines cs ++ lines rest := by
  induction cs with
  | nil => rfl
  | cons c cs ih =>
    rw [List.cons_append, lines_cons, lines_cons]
    by_cases hcs : cs = []
    · subst hcs
      have hend : isLineEnd c = true := by simpa [EndsLine] using hends
      have hsingle : ¬ (c == '\r' && rest.head? == some '\n') = true := by
        simp only [Bool.and_eq_true, beq_iff_eq, not_and]
        rintro rfl
        simpa using hpair
      unfold lineStep
      rw [List.nil_append, if_neg hsingle, if_pos hend]
      simp [hend, lines_nil]
    · obtain ⟨d, ds, rfl⟩ := List.exists_cons_of_ne_nil hcs
      rw [EndsLine, List.getLast?_cons_cons] at hends
      rw [List.getLast?_cons_cons] at hpair
      rw [ih hends hpair]
      exact lineStep_append (lines_ne_nil hcs) _ _

theorem lines_newline_append (cs rest : List Char) :
    lines (cs ++ '\n' :: rest) = lines (cs ++ ['\n']) ++ lines rest := by
  rw [← List.singleton_append, ← List.append_assoc]
  apply lines_append (endsLine_concat_newline cs)
  left
  rw [List.getLast?_concat]
  decide

/-- A line feed at the end of a text adds an empty line, unless it only ends the last one. -/
theorem lines_newline (cs : List Char) :
    lines (cs ++ ['\n']) = lines cs ∨ lines (cs ++ ['\n']) = lines cs ++ [[]] := by
  induction cs with
  | nil => exact .inr rfl
  | cons c cs ih =>
    rw [List.cons_append, lines_cons, lines_cons]
    by_cases hcs : cs = []
    · subst hcs
      have hlines : lines ([] ++ ['\n']) = [[]] := rfl
      rw [hlines, lines_nil]
      unfold lineStep
      by_cases hreturn : c = '\r'
      · exact .inl (by simp [hreturn]; decide)
      · by_cases hend : isLineEnd c = true
        · exact .inr (by simp [hreturn, hend])
        · exact .inl (by simp [hreturn, hend, joinFirst])
    · obtain ⟨d, ds, rfl⟩ := List.exists_cons_of_ne_nil hcs
      obtain h | h := ih
      · rw [h]
        exact .inl rfl
      · rw [h, lineStep_append (lines_ne_nil hcs)]
        exact .inr rfl

/-- The text is one line. -/
def IsLine (line : List Char) : Prop := ∀ c ∈ line, isLineEnd c = false

instance (line : List Char) : Decidable (IsLine line) :=
  inferInstanceAs (Decidable (∀ c ∈ line, isLineEnd c = false))

theorem IsLine.newline_notMem {line : List Char} (h : IsLine line) : '\n' ∉ line := by
  intro hmem
  exact absurd (h '\n' hmem) (by decide)

theorem IsLine.splitOn {line : List Char} (h : IsLine line) : splitOn '\n' line = [line] :=
  splitOn_of_notMem h.newline_notMem

/-- A line with its end is one line. -/
theorem lines_line (h : IsLine line) : lines (line ++ ['\n']) = [line] := by
  induction line with
  | nil => rfl
  | cons c line ih =>
    rw [List.cons_append, lines_cons, ih fun d hd => h d (List.mem_cons_of_mem c hd),
      lineStep_of_not_end (h c List.mem_cons_self)]
    rfl

/-- A line end cuts off the line in front of it. A pair of characters does that as one. -/
theorem lines_append_cons (h : IsLine line) (hend : isLineEnd c = true) (cs : List Char) :
    lines (line ++ c :: cs) =
      line :: lines (if c == '\r' && cs.head? == some '\n' then cs.tail else cs) := by
  induction line with
  | nil =>
    rw [List.nil_append, lines_cons, lineStep]
    split
    · next hpair =>
      obtain ⟨-, ds, rfl⟩ := exists_of_paired hpair
      exact lines_cons _ _
    · rfl
  | cons d line ih =>
    rw [List.cons_append, lines_cons, lineStep_of_not_end (h d List.mem_cons_self),
      ih fun c hc => h c (List.mem_cons_of_mem d hc)]
    rfl

/-- A text without line ends is a line, unless it is empty. -/
theorem lines_of_isLine (h : IsLine line) (hne : line ≠ []) : lines line = [line] := by
  induction line with
  | nil => exact absurd rfl hne
  | cons c line ih =>
    rw [lines_cons, lineStep_of_not_end (h c List.mem_cons_self)]
    by_cases hline : line = []
    · rw [hline]
      rfl
    · rw [ih (fun d hd => h d (List.mem_cons_of_mem c hd)) hline]
      rfl

/-- The first line of a text stands in front of it, and every line somewhere in it. -/
theorem prefix_and_infix_of_lines (cs : List Char) :
    (∀ line, (lines cs).head? = some line → line <+: cs) ∧ ∀ line ∈ lines cs, line <:+: cs := by
  induction cs with
  | nil => exact ⟨nofun, nofun⟩
  | cons c cs ih =>
    obtain ⟨hfirst, hall⟩ := ih
    have hrest : ∀ line ∈ lines cs, line <:+: c :: cs := fun line hline =>
      (hall line hline).trans (List.suffix_cons c cs).isInfix
    rw [lines_cons, lineStep]
    split
    · next hpair =>
      refine ⟨fun line hline => ?_, hrest⟩
      -- the text goes on with a line feed, so its first line is empty
      obtain ⟨-, ds, rfl⟩ := exists_of_paired hpair
      rw [lines_cons] at hline
      obtain rfl : [] = line := Option.some.inj hline
      exact List.nil_prefix
    · split
      · refine ⟨fun line hline => ?_, fun line hline => ?_⟩
        · obtain rfl : [] = line := Option.some.inj hline
          exact List.nil_prefix
        · obtain rfl | hline := List.mem_cons.1 hline
          · exact List.nil_infix
          · exact hrest line hline
      · cases hlines : lines cs with
        | nil =>
          have hsingle : [c] <+: c :: cs := ⟨cs, rfl⟩
          simp only [joinFirst, List.head?_cons, Option.some.injEq, List.mem_singleton]
          exact ⟨fun line h => h ▸ hsingle, fun line h => h ▸ hsingle.isInfix⟩
        | cons first others =>
          rw [hlines] at hfirst hrest
          have hfront : c :: first <+: c :: cs := List.cons_prefix_cons.2 ⟨rfl, hfirst first rfl⟩
          refine ⟨fun line hline => ?_, fun line hline => ?_⟩
          · exact Option.some.inj hline ▸ hfront
          · obtain rfl | hline := List.mem_cons.1 hline
            · exact hfront.isInfix
            · exact hrest line (List.mem_cons_of_mem first hline)

theorem infix_of_mem_lines (h : line ∈ lines cs) : line <:+: cs := (prefix_and_infix_of_lines cs).2 line h

end CodeReview.Chars
