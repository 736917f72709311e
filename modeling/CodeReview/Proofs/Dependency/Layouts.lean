import CodeReview.Dependency.Python
import CodeReview.Proofs.Text.Keywords
import CodeReview.Proofs.Text.Words

/-!
# Layouts of a `from` statement

The names that a `from` statement imports stand on its line or, in parentheses, on as many lines as one
likes, with line ends and comments wherever a space may stand. `Statement` holds what can be chosen, and
`Statement.chars` is the text.

* `Names.silent`: no line of a list of names opens a statement itself, unless it is the first.
* `Statement.quiet`: so no line of a statement does, but the first.
-/

namespace CodeReview.Dependency.Python

open Text

/-! ## Words -/

/-- A character that may stand in a name. Beyond ASCII it may be any but white space. -/
def isNameChar (c : Char) : Bool := if c.toNat < 128 then isWord c else !isBlank c

/-- The words that open a statement which imports. -/
def keywords : List (List Char) := ["from".toList, "import".toList]

/-- A name, which may be any word but these. -/
structure Name where
  chars : List Char
  ne_nil : chars ≠ []
  isNameChar_of_mem : ∀ c ∈ chars, isNameChar c = true
  notMem_keywords : chars ∉ keywords

/-! ## Spacing -/

/-- How the names are laid out. -/
inductive Layout
  | line
  | parens

/-- A comment, up to the end of its line. -/
structure Comment where
  text : List Char
  isLine : '\n' ∉ text
  isOpen : ')' ∉ text

def Comment.chars (comment : Comment) : List Char := '#' :: comment.text

/-- What may stand between two words: a space or a tab, and in parentheses also a line end, with a comment in
front of it or without one. -/
inductive Space : Layout → Type
  | gap {layout : Layout} (c : Char) (h : isGap c = true) : Space layout
  | lineEnd (comment : Option Comment) : Space .parens

def Space.chars {layout : Layout} : Space layout → List Char
  | .gap c _ => [c]
  | .lineEnd none => ['\n']
  | .lineEnd (some comment) => comment.chars ++ ['\n']

abbrev Spacing (layout : Layout) := List (Space layout)

def Spacing.chars {layout : Layout} (spacing : Spacing layout) : List Char := spacing.flatMap Space.chars

/-! ## Lists of names -/

/-- The other name that a name gets, with the spacing on both sides of the word in between. -/
structure Alias (layout : Layout) where
  before : Spacing layout
  behind : Spacing layout
  name : Name
  before_ne_nil : before ≠ []
  behind_ne_nil : behind ≠ []

/-- One name of a list, up to the commas. -/
structure Part (layout : Layout) where
  before : Spacing layout
  name : Name
  newName : Option (Alias layout)
  behind : Spacing layout

/-- A list of names, and the spacing behind its last comma if it ends in one. -/
structure Names (layout : Layout) where
  init : List (Part layout)
  last : Part layout
  trailing : Option (Spacing layout)

section Chars

variable {layout : Layout}

def Alias.chars (newName : Alias layout) : List Char :=
  newName.before.chars ++ ("as".toList ++ (newName.behind.chars ++ newName.name.chars))

/-- The other name of a part, if it gets one. -/
def Part.newNameChars (part : Part layout) : List Char :=
  match part.newName with
  | none => []
  | some newName => newName.chars

/-- What stands behind the name of a part. -/
def Part.rest (part : Part layout) : List Char := part.newNameChars ++ part.behind.chars

def Part.chars (part : Part layout) : List Char :=
  part.before.chars ++ (part.name.chars ++ part.rest)

/-- The parts in front of the last, each with its comma. -/
def Names.initChars (names : Names layout) : List Char := names.init.flatMap fun part => part.chars ++ [',']

/-- What stands behind the last part. -/
def Names.trailingChars (names : Names layout) : List Char :=
  match names.trailing with
  | none => []
  | some spacing => ',' :: spacing.chars

def Names.chars (names : Names layout) : List Char :=
  names.initChars ++ (names.last.chars ++ names.trailingChars)

/-- What stands in front of the last name. -/
def Names.front (names : Names layout) : List Char := names.initChars ++ names.last.before.chars

/-- The names that are imported. -/
def Names.originals (names : Names layout) : List String :=
  (names.init ++ [names.last]).map fun part => String.ofList part.name.chars

end Chars

/-! ## Statements -/

/-- A list of names with what stands around it: on one line the gap in front, and otherwise the parentheses
and the gaps on both sides of them. -/
inductive NameList
  | line (gap : Space .line) (names : Names .line)
  | parens (gaps : Spacing .line) (names : Names .parens) (behind : Spacing .line)

def NameList.chars : NameList → List Char
  | .line gap names => gap.chars ++ names.chars
  | .parens gaps names behind => gaps.chars ++ ('(' :: (names.chars ++ ')' :: behind.chars))

theorem NameList.parens_chars_append (gaps : Spacing .line) (names : Names .parens) (behind : Spacing .line)
    (cs : List Char) : (NameList.parens gaps names behind).chars ++ cs =
      gaps.chars ++ '(' :: (names.chars ++ ')' :: (behind.chars ++ cs)) := by
  simp [NameList.chars]

def NameList.originals : NameList → List String
  | .line _ names => names.originals
  | .parens _ names _ => names.originals

/-- A `from` statement. There has to be a gap between a keyword and a name, but between a keyword and a dot
there may be none. -/
structure Statement where
  indent : Spacing .line
  afterFrom : Spacing .line
  dots : Nat
  modules : List Name
  beforeImport : Spacing .line
  list : NameList
  comment : Option Comment
  lineEnd : Bool
  named : dots ≠ 0 ∨ modules ≠ []
  apart_from : dots = 0 → afterFrom ≠ []
  apart_import : modules ≠ [] → beforeImport ≠ []

namespace Statement

variable (statement : Statement)

/-- The module with its dots. -/
def specifier : List Char :=
  List.replicate statement.dots '.' ++ Chars.join ['.'] (statement.modules.map Name.chars)

/-- The comment at the end of the last line, if there is one. -/
def commentChars : List Char :=
  match statement.comment with
  | none => []
  | some comment => comment.chars

/-- The line end behind the statement, if there is one. -/
def lineEndChars : List Char := if statement.lineEnd then ['\n'] else []

/-- What stands behind the list of names. -/
def ending : List Char := statement.commentChars ++ statement.lineEndChars

/-- What stands behind the module. -/
def rest : List Char :=
  statement.beforeImport.chars ++ ("import".toList ++ (statement.list.chars ++ statement.ending))

def chars : List Char :=
  statement.indent.chars ++ ("from".toList ++ (statement.afterFrom.chars ++ (statement.specifier ++ statement.rest)))

/-- What the statement says: the module with its dots, and the names that are imported from it. -/
def imported : Import := ⟨String.ofList statement.specifier, statement.list.originals⟩

end Statement

/-! ## Characters -/

section Characters

variable {c : Char}

theorem isGap_iff : isGap c = true ↔ c = ' ' ∨ c = '\t' := by
  simp [isGap]

theorem isBlank_of_isGap (h : isGap c = true) : isBlank c = true := by
  rcases isGap_iff.1 h with rfl | rfl <;> decide

/-- Names hold no white space. -/
theorem isNameChar_of_isBlank (h : isBlank c = true) : isNameChar c = false := by
  rw [isNameChar]
  split
  · exact isWord_of_isBlank h
  · rw [h]
    rfl

theorem isGap_of_isNameChar (h : isNameChar c = true) : isGap c = false := by
  by_contra hgap
  rw [isNameChar_of_isBlank (isBlank_of_isGap (by simpa using hgap))] at h
  exact nomatch h

end Characters

/-! ## Opening a statement -/

/-- A name that the text before ends in does not go on into this text. -/
def Apart (cs : List Char) : Prop := ∀ c ∈ cs.head?, isNameChar c = false

/-- The first line opens a statement: behind its indentation stands a keyword, and a gap behind that. -/
def Opens (cs : List Char) : Prop :=
  ∃ keyword ∈ keywords, ∃ c rest, isGap c = true ∧ gaps cs = keyword ++ c :: rest

/-- No line opens a statement, but perhaps the first. -/
def Quiet : List Char → Prop
  | [] => True
  | c :: cs => (c = '\n' → ¬ Opens cs) ∧ Quiet cs

/-- No line opens a statement. -/
structure Silent (cs : List Char) : Prop where
  first : ¬ Opens cs
  others : Quiet cs

section Lines

variable {c : Char} {cs before keyword rest : List Char} {layout : Layout}

theorem isNameChar_of_mem_keywords : ∀ keyword ∈ keywords, ∀ c ∈ keyword, isNameChar c = true := by
  decide

/-- Where a keyword stands but not as a word of its own, the text goes on with a name. -/
theorem exists_isNameChar_of_append (hbefore : ∀ c ∈ before, isNameChar c = true) (hne : before ∉ keywords)
    (hcs : Apart cs) (hkeyword : keyword ∈ keywords) (h : before ++ cs = keyword ++ rest) :
    ∃ c behind, rest = c :: behind ∧ isNameChar c = true := by
  rcases List.append_eq_append_iff.1 h with ⟨inner, hinner, hcs'⟩ | ⟨inner, hinner, hrest⟩
  · cases inner with
    | nil => exact absurd (by simpa [hinner] using hkeyword) hne
    | cons c inner =>
      have hc := isNameChar_of_mem_keywords keyword hkeyword c (by simp [hinner])
      rw [hcs c (by simp [hcs'])] at hc
      exact nomatch hc
  · cases inner with
    | nil => exact absurd (by simpa [hinner] using hkeyword) hne
    | cons c inner => exact ⟨c, inner ++ cs, hrest, hbefore c (by simp [hinner])⟩

theorem gaps_append (h : ∀ c ∈ before, isGap c = true) (hcs : ∀ c ∈ cs.head?, isGap c = false) :
    gaps (before ++ cs) = cs := by
  have hspan := Scan.span_append h hcs
  rw [List.span_eq_takeWhile_dropWhile] at hspan
  exact (Prod.mk.inj hspan).2

theorem gaps_of_isNameChar (h : isNameChar c = true) (cs : List Char) : gaps (c :: cs) = c :: cs :=
  List.dropWhile_cons_of_neg (by simp [isGap_of_isNameChar h])

theorem opens_cons_of_isGap (h : isGap c = true) (cs : List Char) : Opens (c :: cs) ↔ Opens cs := by
  rw [Opens, Opens, gaps, List.dropWhile_cons_of_pos h, gaps]

theorem not_opens_nil : ¬ Opens [] := by
  rintro ⟨keyword, -, c, rest, -, h⟩
  exact absurd h.symm (by simp [gaps])

/-- A line that starts with a mark opens no statement. -/
theorem not_opens_cons (h : isNameChar c = false) (hgap : isGap c = false) : ¬ Opens (c :: cs) := by
  rintro ⟨keyword, hkeyword, d, rest, -, heq⟩
  rw [gaps, List.dropWhile_cons_of_neg (by simp [hgap])] at heq
  have hne : keyword ≠ [] := by
    rintro rfl
    exact absurd hkeyword (by decide)
  obtain ⟨first, others, rfl⟩ := List.exists_cons_of_ne_nil hne
  obtain ⟨rfl, -⟩ := List.cons.inj heq
  rw [isNameChar_of_mem_keywords _ hkeyword _ List.mem_cons_self] at h
  exact nomatch h

theorem not_opens_append (hbefore : ∀ c ∈ before, isNameChar c = true) (hne : before ∉ keywords)
    (hnil : before ≠ []) (hcs : Apart cs) : ¬ Opens (before ++ cs) := by
  rintro ⟨keyword, hkeyword, d, rest, hd, heq⟩
  have hgaps : gaps (before ++ cs) = before ++ cs := by
    obtain ⟨first, others, rfl⟩ := List.exists_cons_of_ne_nil hnil
    exact gaps_of_isNameChar (hbefore first List.mem_cons_self) _
  rw [hgaps] at heq
  obtain ⟨c, behind, hrest, hc⟩ := exists_isNameChar_of_append hbefore hne hcs hkeyword heq
  obtain ⟨rfl, -⟩ := List.cons.inj hrest
  rw [isNameChar_of_isBlank (isBlank_of_isGap hd)] at hc
  exact nomatch hc

theorem quiet_append (h : '\n' ∉ before) : Quiet (before ++ cs) ↔ Quiet cs := by
  induction before with
  | nil => rfl
  | cons c before ih =>
    obtain ⟨hc, hbefore⟩ := not_or.1 (mt List.mem_cons.2 h)
    rw [List.cons_append, Quiet, ih hbefore]
    exact and_iff_right fun heq => absurd heq.symm hc

theorem silent_nil : Silent [] := ⟨not_opens_nil, trivial⟩

namespace Silent

theorem cons_of_isGap (h : Silent cs) (hc : isGap c = true) : Silent (c :: cs) := by
  refine ⟨mt (opens_cons_of_isGap hc cs).1 h.first, ?_, h.others⟩
  rintro rfl
  exact absurd hc (by decide)

theorem cons_lineEnd (h : Silent cs) : Silent ('\n' :: cs) :=
  ⟨not_opens_cons (by decide) (by decide), fun _ => h.first, h.others⟩

/-- A line that starts with a mark is none that opens a statement, whatever stands in it. -/
theorem cons_mark (hc : c ∈ ['#', ',', ')']) (h : Quiet cs) : Silent (c :: cs) := by
  have hmarks : ∀ c ∈ ['#', ',', ')'], isNameChar c = false ∧ isGap c = false ∧ c ≠ '\n' := by decide
  obtain ⟨hname, hgap, hne⟩ := hmarks c hc
  exact ⟨not_opens_cons hname hgap, fun heq => absurd heq hne, h⟩

theorem append_word (h : Silent cs) (hbefore : ∀ c ∈ before, isNameChar c = true)
    (hne : before ∉ keywords) (hcs : Apart cs) : Silent (before ++ cs) := by
  by_cases hnil : before = []
  · rwa [hnil, List.nil_append]
  · have hline : '\n' ∉ before := fun hmem => absurd (hbefore _ hmem) (by decide)
    exact ⟨not_opens_append hbefore hne hnil hcs, (quiet_append hline).2 h.others⟩

end Silent

end Lines

/-! ## What each part of a statement starts with -/

section Heads

variable {layout : Layout} {cs : List Char}

theorem apart_cons {c : Char} (h : isNameChar c = false) (cs : List Char) : Apart (c :: cs) := by
  rintro _ ⟨⟩
  exact h

theorem Space.exists_head (space : Space layout) :
    ∃ c rest, space.chars = c :: rest ∧ (isBlank c = true ∨ c = '#') := by
  cases space with
  | gap c h => exact ⟨c, [], rfl, .inl (isBlank_of_isGap h)⟩
  | lineEnd comment =>
    cases comment with
    | none => exact ⟨'\n', [], rfl, .inl (by decide)⟩
    | some comment => exact ⟨'#', _, rfl, .inr rfl⟩

theorem Spacing.chars_cons (space : Space layout) (spacing : Spacing layout) :
    Spacing.chars (space :: spacing) = space.chars ++ spacing.chars :=
  List.flatMap_cons

/-- Spacing starts with white space or a comment. -/
theorem Spacing.exists_head {spacing : Spacing layout} (h : spacing ≠ []) :
    ∃ c rest, spacing.chars = c :: rest ∧ (isBlank c = true ∨ c = '#') := by
  obtain ⟨space, spacing, rfl⟩ := List.exists_cons_of_ne_nil h
  obtain ⟨c, rest, hspace, hc⟩ := space.exists_head
  exact ⟨c, rest ++ Spacing.chars spacing, by rw [chars_cons, hspace, List.cons_append], hc⟩

theorem apart_of_blank {c : Char} (h : isBlank c = true ∨ c = '#') (cs : List Char) : Apart (c :: cs) :=
  apart_cons (h.elim isNameChar_of_isBlank (fun heq => heq ▸ by decide)) cs

theorem Spacing.apart {spacing : Spacing layout} (h : spacing ≠ []) (cs : List Char) :
    Apart (spacing.chars ++ cs) := by
  obtain ⟨c, rest, hspacing, hc⟩ := exists_head h
  rw [hspacing]
  exact apart_of_blank hc (rest ++ cs)

theorem Spacing.apart_append (spacing : Spacing layout) (h : Apart cs) : Apart (spacing.chars ++ cs) := by
  by_cases hnil : spacing = []
  · rwa [hnil]
  · exact apart hnil cs

theorem Alias.apart (newName : Alias layout) (cs : List Char) : Apart (newName.chars ++ cs) := by
  rw [Alias.chars, List.append_assoc]
  exact Spacing.apart newName.before_ne_nil _

theorem Part.apart_rest (part : Part layout) (h : Apart cs) : Apart (part.rest ++ cs) := by
  rw [Part.rest, Part.newNameChars, List.append_assoc]
  cases part.newName with
  | none => exact part.behind.apart_append h
  | some newName => exact newName.apart _

theorem Names.apart_trailing (names : Names layout) (h : Apart cs) : Apart (names.trailingChars ++ cs) := by
  rw [Names.trailingChars]
  cases names.trailing with
  | none => exact h
  | some spacing => exact apart_cons (by decide) _

theorem Statement.apart_ending (statement : Statement) : Apart statement.ending := by
  have hend : Apart statement.lineEndChars := by
    rw [Statement.lineEndChars]
    split
    · exact apart_cons (by decide) []
    · exact nofun
  rw [Statement.ending, Statement.commentChars]
  cases statement.comment with
  | none => exact hend
  | some comment => exact apart_cons (by decide) _

end Heads

/-! ## What a list of names holds -/

section Contents

variable {layout : Layout}

/-- What stands neither in spacing nor in names, and is no comma, does not stand in a list of names. -/
theorem Names.notMem_chars (names : Names layout) {c : Char} (hspace : ∀ space : Space layout, c ∉ space.chars)
    (hname : isNameChar c = false) (hcomma : c ≠ ',') : c ∉ names.chars := by
  have hspacing (spacing : Spacing layout) : c ∉ spacing.chars := fun hc => by
    obtain ⟨space, -, hc⟩ := List.mem_flatMap.1 hc
    exact hspace space hc
  have hword (word : List Char) (h : ∀ c ∈ word, isNameChar c = true) : c ∉ word := fun hc => by
    rw [h c hc] at hname
    exact nomatch hname
  have hnewName (part : Part layout) : c ∉ part.newNameChars := by
    rw [Part.newNameChars]
    cases part.newName with
    | none => exact List.not_mem_nil
    | some newName =>
      simp only [Alias.chars, List.mem_append, not_or]
      exact ⟨hspacing _, hword _ (by decide), hspacing _, hword _ newName.name.isNameChar_of_mem⟩
  have hpart (part : Part layout) : c ∉ part.chars := by
    simp only [Part.chars, Part.rest, List.mem_append, not_or]
    exact ⟨hspacing _, hword _ part.name.isNameChar_of_mem, hnewName part, hspacing _⟩
  have htrailing : c ∉ names.trailingChars := by
    rw [Names.trailingChars]
    cases names.trailing with
    | none => exact List.not_mem_nil
    | some spacing => exact mt List.mem_cons.1 (not_or.2 ⟨hcomma, hspacing spacing⟩)
  simp only [Names.chars, Names.initChars, List.mem_append, List.mem_flatMap, List.mem_singleton, not_or,
    not_exists, not_and]
  exact ⟨fun part _ => ⟨hpart part, hcomma⟩, hpart names.last, htrailing⟩

/-- What stands in front of the last name, the name, and what stands behind it. -/
theorem Names.chars_eq (names : Names layout) : names.chars =
    names.front ++ (names.last.name.chars ++ (names.last.rest ++ names.trailingChars)) := by
  simp [Names.chars, Names.front, Part.chars]

/-- Nothing in a list of names closes the parentheses around it. -/
theorem Names.close_notMem (names : Names layout) : ')' ∉ names.chars := by
  refine names.notMem_chars (fun space => ?_) (by decide) (by decide)
  cases space with
  | gap c h =>
    rintro hc
    rw [← List.mem_singleton.1 hc] at h
    exact absurd h (by decide)
  | lineEnd comment =>
    cases comment with
    | none => decide
    | some comment => simp [Space.chars, Comment.chars, comment.isOpen]

/-- On one line, a list of names holds no line end and no comment. -/
theorem Names.notMem_of_line (names : Names .line) {c : Char} (h : c ∈ ['\n', '#']) : c ∉ names.chars := by
  have hmarks : ∀ c ∈ ['\n', '#'], isNameChar c = false ∧ isGap c = false ∧ c ≠ ',' := by decide
  obtain ⟨hname, hgap, hcomma⟩ := hmarks c h
  refine names.notMem_chars (fun space => ?_) hname hcomma
  cases space with
  | gap d hd =>
    rintro hc
    rw [List.mem_singleton.1 hc, hd] at hgap
    exact nomatch hgap

/-- Behind its spacing, a list of names starts with a name. -/
theorem Names.exists_name (names : Names layout) : ∃ (before : Spacing layout) (name : Name) (rest : List Char),
    names.chars = before.chars ++ (name.chars ++ rest) ∧ ∀ cs, Apart cs → Apart (rest ++ cs) := by
  rw [Names.chars, Names.initChars]
  cases names.init with
  | nil =>
    refine ⟨names.last.before, names.last.name, names.last.rest ++ names.trailingChars, ?_, fun cs h => ?_⟩
    · simp [Part.chars]
    · rw [List.append_assoc]
      exact names.last.apart_rest (names.apart_trailing h)
  | cons part init =>
    refine ⟨part.before, part.name, part.rest ++ ',' :: (init.flatMap (fun part => part.chars ++ [',']) ++
      (names.last.chars ++ names.trailingChars)), ?_, fun cs _ => ?_⟩
    · simp [Part.chars]
    · rw [List.append_assoc]
      exact part.apart_rest (apart_cons (by decide) _)

end Contents

/-! ## Only the first line opens a statement -/

section Layouts

variable {layout : Layout} {cs : List Char}

theorem Comment.silent (comment : Comment) (h : Quiet cs) : Silent (comment.chars ++ cs) :=
  Silent.cons_mark (by decide) ((quiet_append comment.isLine).2 h)

theorem Space.silent (space : Space layout) (h : Silent cs) : Silent (space.chars ++ cs) := by
  cases space with
  | gap c hc => exact h.cons_of_isGap hc
  | lineEnd comment =>
    cases comment with
    | none => exact h.cons_lineEnd
    | some comment =>
      rw [Space.chars, List.append_assoc]
      exact comment.silent h.cons_lineEnd.others

theorem Spacing.silent (spacing : Spacing layout) (h : Silent cs) : Silent (spacing.chars ++ cs) := by
  induction spacing with
  | nil => exact h
  | cons space spacing ih =>
    rw [chars_cons, List.append_assoc]
    exact space.silent ih

theorem Name.silent (name : Name) (h : Silent cs) (hcs : Apart cs) : Silent (name.chars ++ cs) :=
  h.append_word name.isNameChar_of_mem name.notMem_keywords hcs

theorem Alias.silent (newName : Alias layout) (h : Silent cs) (hcs : Apart cs) :
    Silent (newName.chars ++ cs) := by
  have hname := newName.behind.silent (newName.name.silent h hcs)
  have has : Silent ("as".toList ++ (newName.behind.chars ++ (newName.name.chars ++ cs))) :=
    hname.append_word (by decide) (by decide) (Spacing.apart newName.behind_ne_nil _)
  simpa [Alias.chars] using newName.before.silent has

theorem Part.silent (part : Part layout) (h : Silent cs) (hcs : Apart cs) : Silent (part.chars ++ cs) := by
  have hbehind := part.behind.silent h
  have hrest : Silent (part.rest ++ cs) := by
    rw [Part.rest, Part.newNameChars, List.append_assoc]
    cases part.newName with
    | none => exact hbehind
    | some newName => exact newName.silent hbehind (part.behind.apart_append hcs)
  rw [Part.chars, List.append_assoc, List.append_assoc]
  exact part.before.silent (part.name.silent hrest (part.apart_rest hcs))

/-- No line of a list of names opens a statement, not even one that starts with a name. -/
theorem Names.silent (names : Names layout) (h : Silent cs) (hcs : Apart cs) :
    Silent (names.chars ++ cs) := by
  have htrailing : Silent (names.trailingChars ++ cs) := by
    rw [Names.trailingChars]
    cases names.trailing with
    | none => exact h
    | some spacing => exact Silent.cons_mark (by decide) (spacing.silent h).others
  have hlast := names.last.silent htrailing (names.apart_trailing hcs)
  rw [Names.chars, List.append_assoc, List.append_assoc, Names.initChars]
  induction names.init with
  | nil => exact hlast
  | cons part init ih =>
    rw [List.flatMap_cons, List.append_assoc, List.append_assoc]
    exact part.silent (Silent.cons_mark (by decide) ih.others) (apart_cons (by decide) _)

/-- What stands between words on one line is gaps. -/
theorem Spacing.isGap_of_mem (spacing : Spacing .line) : ∀ c ∈ spacing.chars, isGap c = true := by
  intro c hc
  obtain ⟨space, -, hc⟩ := List.mem_flatMap.1 hc
  cases space with
  | gap d hd => exact List.mem_singleton.1 hc ▸ hd

theorem Spacing.lineEnd_notMem (spacing : Spacing .line) : '\n' ∉ spacing.chars :=
  fun hmem => absurd (spacing.isGap_of_mem _ hmem) (by decide)

theorem NameList.quiet (list : NameList) (h : Silent cs) (hcs : Apart cs) : Quiet (list.chars ++ cs) := by
  cases list with
  | line gap names =>
    rw [NameList.chars, List.append_assoc]
    exact (gap.silent (names.silent h hcs)).others
  | parens gaps names behind =>
    have hclosed : Silent (')' :: (behind.chars ++ cs)) :=
      Silent.cons_mark (by decide) (behind.silent h).others
    have hnames := names.silent hclosed (apart_cons (by decide) _)
    rw [NameList.parens_chars_append]
    exact (quiet_append gaps.lineEnd_notMem).2 ⟨fun heq => absurd heq (by decide), hnames.others⟩

namespace Statement

variable (statement : Statement)

theorem silent_lineEndChars : Silent statement.lineEndChars := by
  rw [lineEndChars]
  split
  · exact silent_nil.cons_lineEnd
  · exact silent_nil

theorem silent_ending : Silent statement.ending := by
  rw [ending, commentChars]
  cases statement.comment with
  | none => exact statement.silent_lineEndChars
  | some comment => exact comment.silent statement.silent_lineEndChars.others

/-- Besides its dots, a specifier holds what its names hold. -/
theorem mem_specifier_iff {c : Char} (h : c ≠ '.') :
    c ∈ statement.specifier ↔ ∃ name ∈ statement.modules, c ∈ name.chars := by
  have hdots : c ∉ List.replicate statement.dots '.' := fun hmem => h (List.eq_of_mem_replicate hmem)
  rw [specifier, List.mem_append, or_iff_right hdots, Chars.mem_join_iff h]
  simp

theorem quiet : Quiet statement.chars := by
  have hlist := statement.list.quiet statement.silent_ending statement.apart_ending
  have hspecifier : '\n' ∉ statement.specifier := fun hmem => by
    obtain ⟨name, -, hname⟩ := (statement.mem_specifier_iff (by decide)).1 hmem
    exact absurd (name.isNameChar_of_mem _ hname) (by decide)
  have hline : '\n' ∉ statement.indent.chars ++ ("from".toList ++ (statement.afterFrom.chars ++
      (statement.specifier ++ (statement.beforeImport.chars ++ "import".toList)))) := by
    simp [hspecifier, Spacing.lineEnd_notMem]
  simpa [chars, rest] using (quiet_append hline).2 hlist

end Statement

end Layouts

end CodeReview.Dependency.Python
