import CodeReview.Proofs.Dependency.Layouts

/-!
# Reading a list of names

Only what stands in front of the first `#` of a list is read (`code`), even where the list goes on behind the
comment.

* `importedNames_append_comma`: a list is read part by part, and `importedNames_append_of_mem`: up to a part
  with a comment in it.
* `Names.importedNames_eq_iff`: the names of a list are read if and only if no comment stands in front of
  the last of them.
-/

namespace CodeReview.Dependency.Python

open Text

/-! ## Parts -/

/-- What stands in front of the first comment. -/
def code (clause : List Char) : List Char := clause.takeWhile (· != '#')

/-- The names that are read from one part of a list: its first word, unless that is a star, or none. -/
def namesOfPart (part : List Char) : List String :=
  ([firstWord part].filter fun name => !(name == [] || name == ['*'])).map String.ofList

/-- What is in front of the first comment is one part of a list. -/
def IsPlain (clause : List Char) : Prop := ∀ c ∈ code clause, isBlank c = true ∨ isNameChar c = true

section Clauses

variable {clause before behind : List Char}

theorem code_append_of_notMem (h : '#' ∉ before) (behind : List Char) :
    code (before ++ behind) = before ++ code behind :=
  List.takeWhile_append_of_pos fun _ hc => bne_iff_ne.2 fun heq => h (heq ▸ hc)

theorem code_append_of_mem (h : '#' ∈ before) (behind : List Char) : code (before ++ behind) = code before := by
  obtain ⟨front, rest, rfl, hfront⟩ := List.eq_append_cons_of_mem h
  rw [List.append_assoc, code_append_of_notMem hfront, code_append_of_notMem hfront]
  rfl

theorem code_of_notMem (h : '#' ∉ clause) : code clause = clause := by
  have hcode := code_append_of_notMem h []
  rwa [List.append_nil, show code [] = [] from rfl, List.append_nil] at hcode

theorem forall_code_append {p : Char → Prop} (hbefore : ∀ c ∈ code before, p c)
    (hbehind : ∀ c ∈ code behind, p c) : ∀ c ∈ code (before ++ behind), p c := by
  by_cases h : '#' ∈ before
  · rwa [code_append_of_mem h]
  · rw [code_append_of_notMem h, List.forall_mem_append]
    exact ⟨code_of_notMem h ▸ hbefore, hbehind⟩

theorem importedNames_eq (clause : List Char) : importedNames clause =
    (Chars.splitOn ',' ((code clause).map fun c => if c == '\\' then ' ' else c)).flatMap namesOfPart := by
  have hcode : (Chars.splitFirst '#' clause).1 = code clause := by
    rw [Chars.splitFirst, List.span_eq_takeWhile_dropWhile]
    split <;> next h => rw [← (Prod.mk.inj h).1, code]
  rw [importedNames, hcode]
  generalize Chars.splitOn _ _ = parts
  induction parts with
  | nil => rfl
  | cons part parts ih =>
    rw [List.flatMap_cons, ← ih, namesOfPart, ← List.map_append, ← List.filter_append]
    rfl

/-- A part without a comment is read by itself. -/
theorem importedNames_append_comma (h : '#' ∉ before) (behind : List Char) :
    importedNames (before ++ ',' :: behind) = importedNames before ++ importedNames behind := by
  have hcomma : code (',' :: behind) = ',' :: code behind := rfl
  rw [importedNames_eq, code_append_of_notMem h, hcomma, List.map_append, List.map_cons, if_neg (by decide),
    Chars.splitOn_append, List.flatMap_append, importedNames_eq, code_of_notMem h, importedNames_eq]

/-- Nothing is read behind a comment. -/
theorem importedNames_append_of_mem (h : '#' ∈ before) (behind : List Char) :
    importedNames (before ++ behind) = importedNames before := by
  rw [importedNames_eq, code_append_of_mem h, importedNames_eq]

theorem importedNames_append_mark (before behind : List Char) :
    importedNames (before ++ '#' :: behind) = importedNames before := by
  by_cases h : '#' ∈ before
  · exact importedNames_append_of_mem h _
  · have hmark : code ('#' :: behind) = [] := rfl
    rw [importedNames_eq, code_append_of_notMem h, hmark, List.append_nil, importedNames_eq, code_of_notMem h]

theorem importedNames_of_isPlain (h : IsPlain clause) : importedNames clause = namesOfPart (code clause) := by
  have hplain : ∀ c ∈ code clause, c ≠ ',' ∧ c ≠ '\\' := fun c hc => by
    constructor <;> rintro rfl <;> exact absurd (h _ hc) (by decide)
  have hmap : ((code clause).map fun c => if c == '\\' then ' ' else c) = code clause := by
    rw [List.map_congr_left fun c hc => if_neg (by simpa using (hplain c hc).2), List.map_id']
  rw [importedNames_eq, hmap, Chars.splitOn_of_notMem fun hmem => (hplain _ hmem).1 rfl, List.flatMap_singleton]

theorem length_importedNames_le (h : IsPlain clause) : (importedNames clause).length ≤ 1 := by
  rw [importedNames_of_isPlain h, namesOfPart, List.length_map]
  exact List.length_filter_le _ _

/-- A gap in front of a list makes no difference. -/
theorem importedNames_cons_of_isGap {c : Char} (h : isGap c = true) (clause : List Char) :
    importedNames (c :: clause) = importedNames clause := by
  have hmarks : c ≠ '#' ∧ c ≠ '\\' ∧ c ≠ ',' := by
    rcases isGap_iff.1 h with rfl | rfl <;> decide
  have hcode : code (c :: clause) = c :: code clause := List.takeWhile_cons_of_pos (by simpa using hmarks.1)
  have hpart (part : List Char) : namesOfPart (c :: part) = namesOfPart part := by
    rw [namesOfPart, firstWord, Chars.words_cons_of_isBlank (isBlank_of_isGap h), namesOfPart, firstWord]
  rw [importedNames_eq, hcode, List.map_cons, if_neg (by simpa using hmarks.2.1), Chars.splitOn_cons,
    if_neg (by simpa using hmarks.2.2), importedNames_eq]
  obtain ⟨part, parts, hparts⟩ := List.exists_cons_of_ne_nil (Chars.splitOn_ne_nil ','
    ((code clause).map fun c => if c == '\\' then ' ' else c))
  rw [hparts, Chars.joinFirst, List.flatMap_cons, List.flatMap_cons, hpart]

theorem importedNames_append_of_isGap (h : ∀ c ∈ before, isGap c = true) (clause : List Char) :
    importedNames (before ++ clause) = importedNames clause := by
  induction before with
  | nil => rfl
  | cons c before ih =>
    rw [List.forall_mem_cons] at h
    rw [List.cons_append, importedNames_cons_of_isGap h.1, ih h.2]

/-- White space names nothing. -/
theorem importedNames_of_blank (h : ∀ c ∈ code clause, isBlank c = true) : importedNames clause = [] := by
  have hword : firstWord (code clause) = [] := by rw [firstWord, Chars.words_eq_nil h]; rfl
  rw [importedNames_of_isPlain fun c hc => .inl (h c hc), namesOfPart, hword]
  rfl

end Clauses

/-! ## Lists of names -/

section Names

variable {layout : Layout}

/-- Spacing is white space, up to a comment. -/
theorem Spacing.isBlank_code (spacing : Spacing layout) : ∀ c ∈ code spacing.chars, isBlank c = true := by
  induction spacing with
  | nil => exact List.forall_mem_nil _
  | cons space spacing ih =>
    refine forall_code_append ?_ ih
    cases space with
    | gap c h =>
      have hne : c ≠ '#' := by
        rintro rfl
        exact absurd h (by decide)
      simpa [Space.chars, code, hne] using isBlank_of_isGap h
    | lineEnd comment =>
      cases comment with
      | none => decide
      | some comment => exact List.forall_mem_nil _

theorem isPlain_append {before behind : List Char} (hbefore : IsPlain before) (hbehind : IsPlain behind) :
    IsPlain (before ++ behind) :=
  forall_code_append hbefore hbehind

theorem Spacing.isPlain (spacing : Spacing layout) : IsPlain spacing.chars :=
  fun c hc => .inl (spacing.isBlank_code c hc)

theorem isPlain_word {word : List Char} (h : ∀ c ∈ word, isNameChar c = true) : IsPlain word :=
  fun c hc => .inr (h c (List.takeWhile_subset _ hc))

theorem Part.isPlain_rest (part : Part layout) : IsPlain part.rest := by
  refine isPlain_append ?_ part.behind.isPlain
  rw [Part.newNameChars]
  cases part.newName with
  | none => exact List.forall_mem_nil _
  | some newName =>
    exact isPlain_append newName.before.isPlain (isPlain_append (isPlain_word (by decide))
      (isPlain_append newName.behind.isPlain (isPlain_word newName.name.isNameChar_of_mem)))

theorem Part.isPlain (part : Part layout) : IsPlain part.chars :=
  isPlain_append part.before.isPlain
    (isPlain_append (isPlain_word part.name.isNameChar_of_mem) part.isPlain_rest)

/-- The name of a part ends where the part goes on. -/
theorem Part.isBlank_of_head? (part : Part layout) : ∀ c ∈ (code part.rest).head?, isBlank c = true := by
  have hrest : part.rest = [] ∨ ∃ c rest, part.rest = c :: rest ∧ (isBlank c = true ∨ c = '#') := by
    rw [Part.rest, Part.newNameChars]
    cases part.newName with
    | none =>
      by_cases hnil : part.behind = []
      · exact .inl (by rw [hnil]; rfl)
      · exact .inr (Spacing.exists_head hnil)
    | some newName =>
      obtain ⟨c, rest, hbefore, hc⟩ := Spacing.exists_head newName.before_ne_nil
      have hstart : newName.chars ++ part.behind.chars = c :: (rest ++ ("as".toList ++
          (newName.behind.chars ++ newName.name.chars)) ++ part.behind.chars) := by
        rw [Alias.chars, hbefore]
        rfl
      exact .inr ⟨c, _, hstart, hc⟩
  intro c hc
  rcases hrest with hnil | ⟨first, rest, hcons, hblank | rfl⟩
  · rw [hnil] at hc
    cases hc
  · have hne : first ≠ '#' := by
      rintro rfl
      exact absurd hblank (by decide)
    rw [hcons, code, List.takeWhile_cons_of_pos (by simpa using hne), List.head?_cons] at hc
    exact Option.some.inj hc ▸ hblank
  · rw [hcons] at hc
    cases hc

theorem Part.importedNames_chars (part : Part layout) (h : '#' ∉ part.before.chars) :
    importedNames part.chars = [String.ofList part.name.chars] := by
  have hname : ∀ c ∈ part.name.chars, isBlank c = false ∧ c ≠ '#' ∧ c ≠ '*' := fun c hc => by
    have hc := part.name.isNameChar_of_mem c hc
    refine ⟨?_, by rintro rfl; exact absurd hc (by decide), by rintro rfl; exact absurd hc (by decide)⟩
    by_contra hblank
    rw [isNameChar_of_isBlank (by simpa using hblank)] at hc
    exact nomatch hc
  have hcode : code part.chars = part.before.chars ++ (part.name.chars ++ code part.rest) := by
    rw [Part.chars, code_append_of_notMem h, code_append_of_notMem fun hmem => (hname _ hmem).2.1 rfl]
  have hbefore : ∀ c ∈ part.before.chars, isBlank c = true := fun c hc =>
    part.before.isBlank_code c (by rwa [code_of_notMem h])
  have hword : firstWord (code part.chars) = part.name.chars := by
    rw [firstWord, hcode, Chars.words_append_of_isBlank hbefore, Chars.words_append part.name.ne_nil
      (fun c hc => (hname c hc).1) part.isBlank_of_head?, List.headD_cons]
  have hstar : part.name.chars ≠ ['*'] := fun heq => (hname '*' (by simp [heq])).2.2 rfl
  rw [importedNames_of_isPlain part.isPlain, namesOfPart, hword,
    List.filter_cons_of_pos (by simp [part.name.ne_nil, hstar])]
  rfl

/-- A part whose name stands behind a comment is not read. -/
theorem Part.importedNames_append_of_mem (part : Part layout) (h : '#' ∈ part.before.chars) (cs : List Char) :
    importedNames (part.chars ++ cs) = [] := by
  rw [Part.chars, List.append_assoc, Python.importedNames_append_of_mem h,
    importedNames_of_blank part.before.isBlank_code]

section Init

variable {init : List (Part layout)} {cs : List Char}

/-- Parts without comments are read, and then what stands behind them. -/
theorem importedNames_init (h : ∀ part ∈ init, '#' ∉ part.chars) :
    importedNames (init.flatMap (fun part => part.chars ++ [',']) ++ cs) =
      init.map (fun part => String.ofList part.name.chars) ++ importedNames cs := by
  induction init with
  | nil => rfl
  | cons part init ih =>
    rw [List.forall_mem_cons] at h
    have hbefore : '#' ∉ part.before.chars := fun hmem => h.1 (List.mem_append_left _ hmem)
    rw [List.flatMap_cons, List.append_assoc, List.append_assoc, List.singleton_append,
      importedNames_append_comma h.1, ih h.2, part.importedNames_chars hbefore]
    rfl

/-- A part with a comment is the last that is read. -/
theorem length_importedNames_init_le (h : ∃ part ∈ init, '#' ∈ part.chars) :
    (importedNames (init.flatMap (fun part => part.chars ++ [',']) ++ cs)).length ≤ init.length := by
  induction init with
  | nil => exact absurd h (by simp)
  | cons part init ih =>
    have hpart := length_importedNames_le part.isPlain
    rw [List.flatMap_cons, List.append_assoc, List.append_assoc, List.singleton_append, List.length_cons]
    by_cases hmem : '#' ∈ part.chars
    · rw [Python.importedNames_append_of_mem hmem]
      omega
    · have hinit : ∃ part ∈ init, '#' ∈ part.chars := by simpa [hmem] using h
      rw [importedNames_append_comma hmem, List.length_append]
      have := ih hinit
      omega

end Init

theorem Statement.importedNames_append_commentChars (statement : Statement) (clause : List Char) :
    importedNames (clause ++ statement.commentChars) = importedNames clause := by
  rw [Statement.commentChars]
  cases statement.comment with
  | none => rw [List.append_nil]
  | some comment => exact importedNames_append_mark clause comment.text

theorem Names.importedNames_last (names : Names layout) (h : '#' ∉ names.last.before.chars) :
    importedNames (names.last.chars ++ names.trailingChars) = [String.ofList names.last.name.chars] := by
  have hlast := names.last.importedNames_chars h
  by_cases hmem : '#' ∈ names.last.chars
  · rw [Python.importedNames_append_of_mem hmem, hlast]
  · rw [Names.trailingChars]
    cases names.trailing with
    | none => rw [List.append_nil, hlast]
    | some spacing =>
      rw [importedNames_append_comma hmem, hlast, importedNames_of_blank spacing.isBlank_code,
        List.append_nil]

/-- The names of a list are read if and only if no comment stands in front of the last of them. -/
theorem Names.importedNames_eq_iff (names : Names layout) :
    importedNames names.chars = names.originals ↔ '#' ∉ names.front := by
  rw [Names.chars, Names.originals, Names.front, Names.initChars, List.mem_append, not_or, List.map_append]
  by_cases hinit : ∃ part ∈ names.init, '#' ∈ part.chars
  · -- the names behind the comment are lost, so there are too few
    refine iff_of_false (fun heq => ?_) fun hnot => ?_
    · have hlength := heq ▸ length_importedNames_init_le hinit
      simp only [List.length_append, List.length_map, List.length_singleton] at hlength
      omega
    · obtain ⟨part, hpart, hmem⟩ := hinit
      exact hnot.1 (List.mem_flatMap.2 ⟨part, hpart, List.mem_append_left _ hmem⟩)
  · have hnone : ∀ part ∈ names.init, '#' ∉ part.chars := by simpa using hinit
    have hfront : '#' ∉ names.init.flatMap fun part => part.chars ++ [','] := by
      simpa using hnone
    rw [importedNames_init hnone, List.append_cancel_left_eq, and_iff_right hfront]
    constructor
    · intro heq hmem
      rw [names.last.importedNames_append_of_mem hmem] at heq
      cases heq
    · exact names.importedNames_last

end Names

end CodeReview.Dependency.Python
