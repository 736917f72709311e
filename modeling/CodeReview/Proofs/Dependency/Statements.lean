import CodeReview.Proofs.Dependency.Clauses
import Mathlib.Data.Option.Basic

/-!
# `from` statements

A `from` statement is read by itself, in any of its layouts (`Statement`). There are two forms to recognise it by,
one for a list of names in parentheses and one for a list on the rest of the line.

* `findAll_eq_singleton`: a statement is found once, because no other line of it opens a statement.
* `Statement.from?_of_isApart`, `Statement.from?_eq_none`: either form gets as far as the list of names if and
  only if the words stand apart and the module is spelled with word characters.
* `Statement.imports_line`, `Statement.imports_parens`, `Statement.length_imports_parens`: what is found then,
  by the layout of the list.
* `Statement.imports_eq_imported_iff`: so a statement is read completely in these layouts (`Statement.IsRead`)
  and in no other.
-/

namespace CodeReview.Dependency.Python

open Text Scan

/-! ## Finding statements -/

section Finding

variable {α : Type} {recognise : Option Char → List Char → Option (α × List Char)} {before : Option Char}
  {cs rest : List Char}

/-- A recogniser that reads nothing but statements which import, from the start of their lines. -/
def ReadsStatements (recognise : Option Char → List Char → Option (α × List Char)) : Prop :=
  ∀ before cs, recognise before cs ≠ none → atLineStart before = true ∧ Opens cs

theorem opens_of_word? {keyword : String} {found : List Char × List Char} (hkeyword : keyword.toList ∈ keywords)
    (h : (word? keyword (gaps cs) >>= someGaps?) = some found) : Opens cs := by
  obtain ⟨rest, hrest, hgap⟩ := Option.bind_eq_some_iff.1 h
  have hgaps : gaps cs = keyword.toList ++ rest := Chars.dropPrefix?_eq_some_iff.1 hrest
  cases rest with
  | nil => exact nomatch hgap
  | cons c rest =>
    refine ⟨_, hkeyword, c, rest, ?_, hgaps⟩
    by_contra hc
    rw [someGaps?, run?_eq_none (by simpa using hc)] at hgap
    exact nomatch hgap

theorem from?_of_none {nameList? : List Char → Option (List Char × List Char)}
    (h : (word? "from" (gaps cs) >>= someGaps?) = none) : from? nameList? before cs = none := by
  simp only [from?, h, Option.bind_eq_bind, Option.bind_none, Option.bind_fun_none]

theorem readsStatements_from? (nameList? : List Char → Option (List Char × List Char)) :
    ReadsStatements (from? nameList?) := by
  intro before cs h
  refine ⟨of_guard_ne_none h, ?_⟩
  cases hfound : (word? "from" (gaps cs) >>= someGaps?) with
  | some found => exact opens_of_word? (by decide) hfound
  | none => exact absurd (from?_of_none hfound) h

theorem readsStatements_import? : ReadsStatements import? := by
  intro before cs h
  refine ⟨of_guard_ne_none h, ?_⟩
  cases hfound : (word? "import" (gaps cs) >>= someGaps?) with
  | some found => exact opens_of_word? (by decide) hfound
  | none =>
    simp only [import?, hfound, Option.bind_eq_bind, Option.bind_none, Option.bind_fun_none] at h
    exact absurd rfl h

/-- Where no other line opens a statement, nothing is found behind the start. -/
theorem findFrom_eq_nil (hreads : ReadsStatements recognise) (hstart : recognise before cs = none)
    (hquiet : Quiet cs) (position : Nat) : findFrom recognise before position cs = [] := by
  induction cs generalizing before position with
  | nil => exact findFrom_nil recognise before position
  | cons c cs ih =>
    rw [findFrom_of_none hstart]
    refine ih ?_ hquiet.2 _
    by_contra hne
    obtain ⟨hline, hopens⟩ := hreads _ _ hne
    exact hquiet.1 (by simpa [atLineStart] using hline) hopens

theorem findAll_eq_nil (hreads : ReadsStatements recognise) (hstart : recognise none cs = none)
    (hquiet : Quiet cs) : findAll recognise cs = [] :=
  findFrom_eq_nil hreads hstart hquiet 0

theorem findAll_eq_singleton {a : α} (hreads : ReadsStatements recognise)
    (hstart : recognise none cs = some (a, rest)) (hlt : rest.length < cs.length) (hrest : Silent rest) :
    findAll recognise cs = [(0, a)] := by
  rw [findAll, findFrom_of_some hstart hlt, findFrom_eq_nil hreads _ hrest.others]
  by_contra hne
  exact hrest.first (hreads _ _ hne).2

end Finding

/-! ## The words of a statement -/

/-- A form of a name list reads nothing where a name stands at once. -/
def ReadsLists (nameList? : List Char → Option (List Char × List Char)) : Prop :=
  ∀ c cs, isNameChar c = true → nameList? (c :: cs) = none

theorem readsLists_namesInParens? : ReadsLists namesInParens? := by
  intro c cs h
  have hne : c ≠ '(' := by
    rintro rfl
    exact absurd h (by decide)
  rw [namesInParens?, gaps_of_isNameChar h, char?, if_neg (by simpa using Ne.symm hne)]
  rfl

theorem readsLists_namesOnLine? : ReadsLists namesOnLine? := by
  intro c cs h
  rw [namesOnLine?, someGaps?, run?_eq_none (by simpa using isGap_of_isNameChar h)]
  rfl

section Words

variable {nameList? : List Char → Option (List Char × List Char)} {before cs between rest : List Char}

/-- A text that starts with a whole name, or with a mark. -/
def IsStart (cs : List Char) : Prop := ∃ word rest, cs = word ++ rest ∧ (∀ c ∈ word, isNameChar c = true) ∧
  word ∉ keywords ∧ Apart rest ∧ ∀ c ∈ cs.head?, isGap c = false

theorem isStart_name (name : Name) (h : Apart rest) : IsStart (name.chars ++ rest) := by
  refine ⟨name.chars, rest, rfl, name.isNameChar_of_mem, name.notMem_keywords, h, ?_⟩
  obtain ⟨first, others, hname⟩ := List.exists_cons_of_ne_nil name.ne_nil
  rw [hname]
  rintro _ ⟨⟩
  exact isGap_of_isNameChar (name.isNameChar_of_mem first (by simp [hname]))

theorem isStart_mark {c : Char} (h : c ∈ ['.', '(']) (cs : List Char) : IsStart (c :: cs) := by
  have hmarks : ∀ c ∈ ['.', '('], isNameChar c = false ∧ isGap c = false := by decide
  refine ⟨[], c :: cs, rfl, List.forall_mem_nil _, by decide, apart_cons (hmarks c h).1 cs, ?_⟩
  rintro _ ⟨⟩
  exact (hmarks c h).2

theorem IsStart.isGap_of_head? (h : IsStart cs) : ∀ c ∈ cs.head?, isGap c = false := by
  obtain ⟨_, _, -, -, -, -, hgap⟩ := h
  exact hgap

/-- No list is read where the word `import` does not stand by itself. -/
theorem IsStart.import_eq_none (h : IsStart cs) (hlists : ReadsLists nameList?) :
    (word? "import" cs >>= nameList?) = none := by
  obtain ⟨word, rest, rfl, hword, hne, hrest, -⟩ := h
  by_contra h
  obtain ⟨found, hfound⟩ := Option.ne_none_iff_exists'.1 h
  obtain ⟨behind, hbehind, hlist⟩ := Option.bind_eq_some_iff.1 hfound
  obtain ⟨c, behind, rfl, hc⟩ := exists_isNameChar_of_append hword hne hrest (by decide)
    (Chars.dropPrefix?_eq_some_iff.1 hbehind)
  rw [hlists c behind hc] at hlist
  exact nomatch hlist

/-- What is read where the module may stand, and what is read where it is missing. -/
theorem from?_eq (h : (word? "from" (gaps cs) >>= someGaps?) = some (between, rest)) :
    from? nameList? none cs =
      (do
        let (_, behind) ← someGaps? (rest.span isModuleChar).2
        let (clause, behind) ← word? "import" behind >>= nameList?
        return (((rest.span isModuleChar).1, clause), behind) :
          Option ((List Char × List Char) × List Char)).or (do
        guard (2 ≤ between.length)
        let (clause, behind) ← word? "import" rest >>= nameList?
        return (([], clause), behind)) := by
  have hline : guard (atLineStart none) = (some () : Option Unit) := rfl
  simp only [from?, h, hline, Option.bind_eq_bind, Option.bind_some]

theorem someGaps?_append (spacing : Spacing .line) (hnil : spacing ≠ [])
    (hrest : ∀ c ∈ rest.head?, isGap c = false) :
    someGaps? (spacing.chars ++ rest) = some (spacing.chars, rest) := by
  refine run?_append ?_ spacing.isGap_of_mem hrest
  obtain ⟨c, behind, hchars, -⟩ := Spacing.exists_head hnil
  rw [hchars]
  exact List.cons_ne_nil c behind

end Words

theorem isModuleChar_of_isGap {c : Char} (h : isGap c = true) : isModuleChar c = false := by
  rcases isGap_iff.1 h with rfl | rfl <;> decide

theorem Spacing.isModuleChar_of_head? (spacing : Spacing .line) (hnil : spacing ≠ []) (cs : List Char) :
    ∀ c ∈ (spacing.chars ++ cs).head?, isModuleChar c = false := by
  obtain ⟨first, others, hchars, -⟩ := Spacing.exists_head hnil
  have hfirst := spacing.isGap_of_mem first (by simp [hchars])
  rw [hchars]
  rintro _ ⟨⟩
  exact isModuleChar_of_isGap hfirst

theorem NameList.isModuleChar_of_head? (list : NameList) (cs : List Char) :
    ∀ c ∈ (list.chars ++ cs).head?, isModuleChar c = false := by
  cases list with
  | line gap names =>
    have hgap := Spacing.isModuleChar_of_head? [gap] (List.cons_ne_nil gap []) (names.chars ++ cs)
    simpa [chars, Spacing.chars] using hgap
  | parens gaps names behind =>
    rw [chars, List.append_assoc]
    by_cases hnil : gaps = []
    · rw [hnil]
      rintro _ ⟨⟩
      decide
    · exact gaps.isModuleChar_of_head? hnil _

/-- The words of a statement stand apart, and its module is spelled with word characters only. -/
structure Statement.IsApart (statement : Statement) : Prop where
  afterFrom : statement.afterFrom ≠ []
  beforeImport : statement.beforeImport ≠ []
  modules : ∀ name ∈ statement.modules, ∀ c ∈ name.chars, isWord c = true

namespace Statement

variable (statement : Statement) {nameList? : List Char → Option (List Char × List Char)}

theorem isStart_specifier : IsStart (statement.specifier ++ statement.rest) := by
  rw [specifier]
  cases hdots : statement.dots with
  | succ dots => exact isStart_mark (by decide) _
  | zero =>
    have hmodules : statement.modules ≠ [] := statement.named.resolve_left (· hdots)
    have hrest : Apart statement.rest := Spacing.apart (statement.apart_import hmodules) _
    obtain ⟨name, more, hcons⟩ := List.exists_cons_of_ne_nil hmodules
    rw [hcons, List.map_cons]
    by_cases hmore : more.map Name.chars = []
    · rw [hmore]
      simpa [Chars.join] using isStart_name name hrest
    · rw [Chars.join_cons hmore]
      simpa using isStart_name name (apart_cons (by decide) (Chars.join ['.'] (more.map Name.chars) ++
        statement.rest))

/-- Behind its gaps, the list of names starts with a name or a parenthesis. -/
theorem exists_isStart_list : ∃ (gaps : Spacing .line) (cs : List Char),
    statement.list.chars ++ statement.ending = gaps.chars ++ cs ∧ IsStart cs := by
  cases statement.list with
  | line gap names =>
    obtain ⟨before, name, rest, hchars, hapart⟩ := names.exists_name
    refine ⟨gap :: before, name.chars ++ (rest ++ statement.ending), ?_,
      isStart_name name (hapart _ statement.apart_ending)⟩
    rw [NameList.chars, hchars, Spacing.chars_cons]
    simp
  | parens gaps names behind =>
    exact ⟨gaps, _, NameList.parens_chars_append gaps names behind statement.ending, isStart_mark (by decide) _⟩

/-- The text behind the first keyword. -/
theorem behind_from : (word? "from" (gaps statement.chars) >>= someGaps?) =
    someGaps? (statement.afterFrom.chars ++ (statement.specifier ++ statement.rest)) := by
  rw [chars, gaps_append statement.indent.isGap_of_mem (by rintro _ ⟨⟩; rfl), word?_append]
  rfl

theorem isModuleChar_of_mem_specifier (h : ∀ name ∈ statement.modules, ∀ c ∈ name.chars, isWord c = true) :
    ∀ c ∈ statement.specifier, isModuleChar c = true := by
  intro c hc
  by_cases hdot : c = '.'
  · rw [hdot]
    decide
  · obtain ⟨name, hname, hc⟩ := (statement.mem_specifier_iff hdot).1 hc
    rw [isModuleChar, h name hname c hc, Bool.true_or]

/-- A statement whose words stand apart is read up to its list of names. -/
theorem from?_of_isApart (hlists : ReadsLists nameList?) (h : statement.IsApart) :
    from? nameList? none statement.chars =
      (nameList? (statement.list.chars ++ statement.ending)).map
        fun found => ((statement.specifier, found.1), found.2) := by
  have hstart := statement.isStart_specifier
  have hfrom := statement.behind_from.trans
    (someGaps?_append statement.afterFrom h.afterFrom hstart.isGap_of_head?)
  have hspan : (statement.specifier ++ statement.rest).span isModuleChar =
      (statement.specifier, statement.rest) :=
    span_append (statement.isModuleChar_of_mem_specifier h.modules)
      (statement.beforeImport.isModuleChar_of_head? h.beforeImport _)
  have hrest : someGaps? statement.rest = some (statement.beforeImport.chars,
      "import".toList ++ (statement.list.chars ++ statement.ending)) :=
    someGaps?_append statement.beforeImport h.beforeImport (by rintro _ ⟨⟩; rfl)
  rw [from?_eq hfrom, hspan]
  simp only [hrest, word?_append, hstart.import_eq_none hlists, Option.bind_eq_bind, Option.bind_some,
    Option.bind_none, Option.bind_fun_none, Option.or_none]
  cases nameList? (statement.list.chars ++ statement.ending) <;> rfl

/-- Where the word `import` touches the dots, it is taken for a part of the module. -/
theorem import_eq_none_of_touching (hlists : ReadsLists nameList?) (h : statement.beforeImport = [])
    {found : List Char × List Char}
    (hfound : someGaps? ((statement.specifier ++ statement.rest).span isModuleChar).2 = some found) :
    (word? "import" found.2 >>= nameList?) = none := by
  have hmodules : statement.modules = [] := by
    by_contra hmodules
    exact statement.apart_import hmodules h
  have hspecifier : ∀ c ∈ statement.specifier ++ "import".toList, isModuleChar c = true := by
    refine List.forall_mem_append.2 ⟨statement.isModuleChar_of_mem_specifier ?_, by decide⟩
    rw [hmodules]
    exact List.forall_mem_nil _
  have hspan := span_append hspecifier (statement.list.isModuleChar_of_head? statement.ending)
  have hrest : statement.specifier ++ statement.rest =
      statement.specifier ++ "import".toList ++ (statement.list.chars ++ statement.ending) := by
    rw [rest, h]
    simp [Spacing.chars]
  obtain ⟨gaps, cs, hlist, hstart⟩ := statement.exists_isStart_list
  rw [hrest, hspan, hlist] at hfound
  by_cases hnil : gaps = []
  · have hnone : someGaps? (gaps.chars ++ cs) = none := by
      rw [hnil]
      exact run?_eq_none hstart.isGap_of_head?
    cases hnone.symm.trans hfound
  · rw [someGaps?_append gaps hnil hstart.isGap_of_head?] at hfound
    rw [← Option.some.inj hfound]
    exact hstart.import_eq_none hlists

/-- A character that is not one of a module stands where a gap has to be. -/
theorem someGaps?_of_module (h : ¬ ∀ name ∈ statement.modules, ∀ c ∈ name.chars, isWord c = true) :
    someGaps? ((statement.specifier ++ statement.rest).span isModuleChar).2 = none := by
  have hdropped : statement.specifier.dropWhile isModuleChar ≠ [] := by
    intro hnil
    have hall := List.dropWhile_eq_nil_iff.1 hnil
    refine h fun name hname c hc => ?_
    have hdot : c ≠ '.' := by
      rintro rfl
      exact absurd (name.isNameChar_of_mem _ hc) (by decide)
    have hmem := (statement.mem_specifier_iff hdot).2 ⟨name, hname, hc⟩
    simpa [isModuleChar, hdot] using hall c hmem
  obtain ⟨c, others, hcons⟩ := List.exists_cons_of_ne_nil hdropped
  have hc : isModuleChar c = false := by
    have hhead := List.head?_dropWhile_not isModuleChar statement.specifier
    rw [hcons] at hhead
    simpa using hhead
  have hmem : c ∈ statement.specifier := List.dropWhile_subset _ (hcons ▸ List.mem_cons_self)
  have hdot : c ≠ '.' := by
    rintro rfl
    exact absurd hc (by decide)
  obtain ⟨name, -, hname⟩ := (statement.mem_specifier_iff hdot).1 hmem
  have hgap := isGap_of_isNameChar (name.isNameChar_of_mem c hname)
  have hsplit : statement.specifier ++ statement.rest =
      statement.specifier.takeWhile isModuleChar ++ (c :: others ++ statement.rest) := by
    rw [← hcons, ← List.append_assoc, List.takeWhile_append_dropWhile]
  rw [hsplit, span_append (fun _ => List.mem_takeWhile_imp) (by rintro _ ⟨⟩; exact hc)]
  exact run?_eq_none (by rintro _ ⟨⟩; exact hgap)

/-- A statement whose words do not stand apart is not read at all. -/
theorem from?_eq_none (hlists : ReadsLists nameList?) (h : ¬ statement.IsApart) :
    from? nameList? none statement.chars = none := by
  have hstart := statement.isStart_specifier
  by_cases hafter : statement.afterFrom = []
  · refine from?_of_none (statement.behind_from.trans ?_)
    rw [hafter]
    exact run?_eq_none hstart.isGap_of_head?
  · have hfrom := statement.behind_from.trans
      (someGaps?_append statement.afterFrom hafter hstart.isGap_of_head?)
    rw [from?_eq hfrom]
    simp only [hstart.import_eq_none hlists, Option.bind_eq_bind, Option.bind_none, Option.bind_fun_none,
      Option.or_none]
    by_cases hmodules : ∀ name ∈ statement.modules, ∀ c ∈ name.chars, isWord c = true
    · have hbefore : statement.beforeImport = [] := by
        by_contra hbefore
        exact h ⟨hafter, hbefore, hmodules⟩
      cases hgaps : someGaps? ((statement.specifier ++ statement.rest).span isModuleChar).2 with
      | none => rfl
      | some found =>
        have hnone := statement.import_eq_none_of_touching hlists hbefore hgaps
        rw [Option.bind_eq_bind] at hnone
        simp only [Option.bind_some, hnone, Option.bind_none]
    · rw [statement.someGaps?_of_module hmodules]
      rfl

end Statement

/-! ## The lists of names -/

theorem namesInParens?_parens (gaps behind : Spacing .line) (names : Names .parens) (cs : List Char) :
    namesInParens? ((NameList.parens gaps names behind).chars ++ cs) =
      some (names.chars, behind.chars ++ cs) := by
  have hspan : (names.chars ++ ')' :: (behind.chars ++ cs)).span (· != ')') =
      (names.chars, ')' :: (behind.chars ++ cs)) :=
    span_append (fun c hc => bne_iff_ne.2 fun heq => names.close_notMem (heq ▸ hc)) (by rintro _ ⟨⟩; rfl)
  have hopen (rest : List Char) : char? '(' ('(' :: rest) = some rest := rfl
  have hclose (rest : List Char) : char? ')' (')' :: rest) = some rest := rfl
  rw [NameList.parens_chars_append, namesInParens?, gaps_append gaps.isGap_of_mem (by rintro _ ⟨⟩; rfl)]
  simp only [hopen, hspan, hclose, Option.bind_eq_bind, Option.bind_some, Option.pure_def]

theorem length_chars_of_line (spacing : Spacing .line) : spacing.chars.length = spacing.length := by
  induction spacing with
  | nil => rfl
  | cons space spacing ih =>
    cases space with
    | gap c h => rw [Spacing.chars_cons, List.length_append, ih, List.length_cons, Nat.add_comm]; rfl

/-- With one gap or none in front of its parenthesis, a list does not count as one that goes on to the end of
the line. -/
theorem namesOnLine?_parens {gaps : Spacing .line} (h : gaps.length ≤ 1) (cs : List Char) :
    namesOnLine? (gaps.chars ++ '(' :: cs) = none := by
  by_cases hnil : gaps = []
  · rw [hnil]
    rfl
  · have hguard : ¬ 2 ≤ gaps.chars.length := by
      rw [length_chars_of_line]
      omega
    rw [namesOnLine?, someGaps?_append gaps hnil (by rintro _ ⟨⟩; rfl)]
    simp only [Option.bind_eq_bind, Option.bind_some, List.head?_cons, Option.all_some, guard, if_neg hguard]
    rfl

/-- With more gaps it does. -/
theorem exists_namesOnLine?_parens {gaps : Spacing .line} (h : 2 ≤ gaps.length) (cs : List Char) :
    ∃ found, namesOnLine? (gaps.chars ++ '(' :: cs) = some found ∧
      found.2.length ≤ (gaps.chars ++ '(' :: cs).length := by
  have hnil : gaps ≠ [] := by
    rintro rfl
    exact absurd h (by decide)
  have hguard : 2 ≤ gaps.chars.length := by rwa [length_chars_of_line]
  refine ⟨(gaps.chars.drop (gaps.chars.length - 1) ++ (restOfLine ('(' :: cs)).1, (restOfLine ('(' :: cs)).2),
    ?_, ?_⟩
  · rw [namesOnLine?, someGaps?_append gaps hnil (by rintro _ ⟨⟩; rfl)]
    simp only [Option.bind_eq_bind, Option.bind_some, List.head?_cons, Option.all_some, guard, if_pos hguard]
    rfl
  · have hline : (restOfLine ('(' :: cs)).2.length ≤ ('(' :: cs).length := by
      rw [restOfLine, List.span_eq_takeWhile_dropWhile]
      exact (List.dropWhile_sublist _).length_le
    rw [List.length_append]
    exact hline.trans (Nat.le_add_left _ _)

/-- Behind the gaps in front of it, a list on one line starts with a name. -/
theorem exists_line (gap : Space .line) (names : Names .line) :
    ∃ (before : Spacing .line) (first : Char) (rest : List Char), before ≠ [] ∧ isNameChar first = true ∧
      (NameList.line gap names).chars = before.chars ++ first :: rest := by
  obtain ⟨before, name, rest, hchars, -⟩ := names.exists_name
  obtain ⟨first, others, hname⟩ := List.exists_cons_of_ne_nil name.ne_nil
  refine ⟨gap :: before, first, others ++ rest, List.cons_ne_nil gap before,
    name.isNameChar_of_mem first (by simp [hname]), ?_⟩
  rw [NameList.chars, hchars, Spacing.chars_cons, hname, List.append_assoc, List.cons_append]

theorem namesInParens?_line (gap : Space .line) (names : Names .line) (cs : List Char) :
    namesInParens? ((NameList.line gap names).chars ++ cs) = none := by
  obtain ⟨before, first, rest, -, hfirst, hchars⟩ := exists_line gap names
  have hne : '(' ≠ first := by
    rintro rfl
    exact absurd hfirst (by decide)
  rw [namesInParens?, hchars, List.append_assoc, gaps_append before.isGap_of_mem
    (by rintro _ ⟨⟩; exact isGap_of_isNameChar hfirst), List.cons_append, char?, if_neg (by simpa using hne)]
  rfl

theorem Statement.lineEnd_notMem_commentChars (statement : Statement) : '\n' ∉ statement.commentChars := by
  rw [commentChars]
  cases statement.comment with
  | none => exact List.not_mem_nil
  | some comment => exact mt List.mem_cons.1 (not_or.2 ⟨by decide, comment.isLine⟩)

theorem Statement.head?_lineEndChars (statement : Statement) : ∀ c ∈ statement.lineEndChars.head?, c = '\n' := by
  rw [lineEndChars]
  split
  · rintro _ ⟨⟩
    rfl
  · rintro _ ⟨⟩

/-- A list on one line is read up to the end of the line. -/
theorem Statement.exists_namesOnLine? (statement : Statement) (gap : Space .line) (names : Names .line) :
    ∃ clause, namesOnLine? ((NameList.line gap names).chars ++ statement.ending) =
      some (clause, statement.lineEndChars) ∧ importedNames clause = importedNames names.chars := by
  obtain ⟨before, first, rest, hnil, hfirst, hchars⟩ := exists_line gap names
  have hline : '\n' ∉ first :: rest ++ statement.commentChars := by
    have hlist : '\n' ∉ (NameList.line gap names).chars := by
      rw [NameList.chars, List.mem_append, not_or]
      exact ⟨by simpa [Spacing.chars] using Spacing.lineEnd_notMem [gap], names.notMem_of_line (by decide)⟩
    rw [List.mem_append, not_or]
    exact ⟨fun hmem => hlist (hchars ▸ List.mem_append_right _ hmem), statement.lineEnd_notMem_commentChars⟩
  have hending : (NameList.line gap names).chars ++ statement.ending =
      before.chars ++ (first :: rest ++ statement.commentChars ++ statement.lineEndChars) := by
    rw [hchars, ending]
    simp
  have hhead : (first == '(' || first == '\n') = false := by
    rw [Bool.or_eq_false_iff, beq_eq_false_iff_ne, beq_eq_false_iff_ne]
    constructor <;> rintro rfl <;> exact absurd hfirst (by decide)
  refine ⟨first :: rest ++ statement.commentChars, ?_, ?_⟩
  · rw [hending, namesOnLine?, someGaps?_append before hnil (by rintro _ ⟨⟩; exact isGap_of_isNameChar hfirst)]
    have hall : ((first :: rest ++ statement.commentChars ++ statement.lineEndChars).head?.all
        fun c => c == '(' || c == '\n') = false := hhead
    simp only [Option.bind_eq_bind, Option.bind_some, hall,
      restOfLine_append hline statement.head?_lineEndChars]
    rfl
  · have hgap : ∀ c ∈ gap.chars, isGap c = true := by
      simpa [Spacing.chars] using Spacing.isGap_of_mem [gap]
    rw [statement.importedNames_append_commentChars, ← importedNames_append_of_isGap before.isGap_of_mem,
      ← hchars, NameList.chars, importedNames_append_of_isGap hgap]

/-! ## Statements -/

/-- How a list of names may be laid out so that it is read completely: on one line in any way, and in parentheses
with one gap at most in front of them and no comment in front of the last name. -/
def NameList.IsRead : NameList → Prop
  | .line _ _ => True
  | .parens gaps names _ => gaps.length ≤ 1 ∧ '#' ∉ names.front

/-- What it takes for a statement to be read completely. -/
structure Statement.IsRead (statement : Statement) : Prop extends statement.IsApart where
  list : statement.list.IsRead

namespace Statement

variable (statement : Statement)

/-- The import that a find stands for. -/
def importAt (find : Find (List Char × List Char)) : Find Import :=
  (find.1, ⟨String.ofList find.2.1, importedNames find.2.2⟩)

theorem imports_chars : imports statement.chars =
    (sorted ((findAll (from? namesInParens?) statement.chars ++
      findAll (from? namesOnLine?) statement.chars).map importAt)).map (·.2) := by
  have hgaps : gaps statement.chars = "from".toList ++ (statement.afterFrom.chars ++
      (statement.specifier ++ statement.rest)) :=
    gaps_append statement.indent.isGap_of_mem (by rintro _ ⟨⟩; rfl)
  have hnone : import? none statement.chars = none := by
    rw [import?, hgaps]
    rfl
  rw [imports, findAll_eq_nil readsStatements_import? hnone statement.quiet, List.flatMap_nil, List.append_nil]
  rfl

section Finds

variable {nameList? : List Char → Option (List Char × List Char)} {clause rest : List Char}

theorem findAll_from?_eq_nil (hlists : ReadsLists nameList?)
    (h : nameList? (statement.list.chars ++ statement.ending) = none) :
    findAll (from? nameList?) statement.chars = [] := by
  refine findAll_eq_nil (readsStatements_from? nameList?) ?_ statement.quiet
  by_cases hapart : statement.IsApart
  · rw [statement.from?_of_isApart hlists hapart, h]
    rfl
  · exact statement.from?_eq_none hlists hapart

theorem from?_of_list (hlists : ReadsLists nameList?) (hapart : statement.IsApart)
    (h : nameList? (statement.list.chars ++ statement.ending) = some (clause, rest))
    (hlength : rest.length ≤ (statement.list.chars ++ statement.ending).length) :
    from? nameList? none statement.chars = some ((statement.specifier, clause), rest) ∧
      rest.length < statement.chars.length := by
  have hfrom : "from".toList.length = 4 := rfl
  refine ⟨by rw [statement.from?_of_isApart hlists hapart, h]; rfl, ?_⟩
  simp only [chars, Statement.rest, List.length_append] at hlength ⊢
  omega

theorem findAll_from?_eq_singleton (hlists : ReadsLists nameList?) (hapart : statement.IsApart)
    (h : nameList? (statement.list.chars ++ statement.ending) = some (clause, rest))
    (hlength : rest.length ≤ (statement.list.chars ++ statement.ending).length) (hrest : Silent rest) :
    findAll (from? nameList?) statement.chars = [(0, (statement.specifier, clause))] := by
  obtain ⟨hfound, hlt⟩ := statement.from?_of_list hlists hapart h hlength
  exact findAll_eq_singleton (readsStatements_from? nameList?) hfound hlt hrest

end Finds

theorem imports_of_single {clause : List Char} (h : findAll (from? namesInParens?) statement.chars ++
    findAll (from? namesOnLine?) statement.chars = [(0, (statement.specifier, clause))]) :
    imports statement.chars = [⟨String.ofList statement.specifier, importedNames clause⟩] := by
  rw [imports_chars, h]
  simp [sorted, importAt]

/-- A list on one line is always read completely. -/
theorem imports_line {gap : Space .line} {names : Names .line} (hlist : statement.list = .line gap names)
    (h : statement.IsApart) : imports statement.chars = [statement.imported] := by
  obtain ⟨clause, hclause, hnames⟩ := statement.exists_namesOnLine? gap names
  have hparens : findAll (from? namesInParens?) statement.chars = [] :=
    statement.findAll_from?_eq_nil readsLists_namesInParens? (by rw [hlist]; exact namesInParens?_line gap names _)
  have hline : findAll (from? namesOnLine?) statement.chars = [(0, (statement.specifier, clause))] := by
    refine statement.findAll_from?_eq_singleton readsLists_namesOnLine? h (by rw [hlist]; exact hclause) ?_
      statement.silent_lineEndChars
    simp only [ending, List.length_append]
    omega
  have hfront : '#' ∉ names.front := fun hmem =>
    names.notMem_of_line (by decide) (names.chars_eq ▸ List.mem_append_left _ hmem)
  rw [statement.imports_of_single (by rw [hparens, hline]; rfl), hnames, names.importedNames_eq_iff.2 hfront,
    imported, hlist]
  rfl

section Parentheses

variable {gaps behind : Spacing .line} {names : Names .parens}

theorem findAll_parens (hlist : statement.list = .parens gaps names behind) (h : statement.IsApart) :
    findAll (from? namesInParens?) statement.chars = [(0, (statement.specifier, names.chars))] := by
  refine statement.findAll_from?_eq_singleton readsLists_namesInParens? h
    (by rw [hlist]; exact namesInParens?_parens gaps behind names _) ?_ (behind.silent statement.silent_ending)
  rw [hlist]
  simp only [NameList.chars, List.length_append, List.length_cons]
  omega

/-- A list in parentheses with one gap or none in front is read once. -/
theorem imports_parens (hlist : statement.list = .parens gaps names behind) (h : statement.IsApart)
    (hgaps : gaps.length ≤ 1) : imports statement.chars =
      [⟨String.ofList statement.specifier, importedNames names.chars⟩] := by
  have hline : findAll (from? namesOnLine?) statement.chars = [] :=
    statement.findAll_from?_eq_nil readsLists_namesOnLine?
      (by rw [hlist, NameList.parens_chars_append]; exact namesOnLine?_parens hgaps _)
  exact statement.imports_of_single (by rw [statement.findAll_parens hlist h, hline]; rfl)

/-- With more gaps it is read twice. -/
theorem length_imports_parens (hlist : statement.list = .parens gaps names behind) (h : statement.IsApart)
    (hgaps : 2 ≤ gaps.length) : 2 ≤ (imports statement.chars).length := by
  obtain ⟨⟨clause, rest⟩, hfound, hlength⟩ := exists_namesOnLine?_parens hgaps
    (names.chars ++ ')' :: (behind.chars ++ statement.ending))
  rw [← NameList.parens_chars_append, ← hlist] at hfound hlength
  obtain ⟨hfrom, hlt⟩ := statement.from?_of_list readsLists_namesOnLine? h hfound hlength
  have hline : findAll (from? namesOnLine?) statement.chars = (0, (statement.specifier, clause)) :: _ :=
    findFrom_of_some hfrom hlt
  rw [imports_chars, statement.findAll_parens hlist h, hline]
  simp [sorted]

/-- The second time the parentheses are taken for a part of the name. -/
example : imports "from a import  (b)".toList = [⟨"a", ["b"]⟩, ⟨"a", ["(b)"]⟩] := by
  cbv

end Parentheses

/-- A `from` statement in any layout is read as exactly one import, of its module with all its names in their
order, if and only if its words stand apart, its module is spelled with word characters, and a list in
parentheses has one gap at most in front and no comment in front of its last name. -/
theorem imports_eq_imported_iff : imports statement.chars = [statement.imported] ↔ statement.IsRead := by
  by_cases hapart : statement.IsApart
  · have hread : statement.IsRead ↔ statement.list.IsRead := ⟨IsRead.list, IsRead.mk hapart⟩
    rw [hread]
    cases hlist : statement.list with
    | line gap names => exact iff_of_true (statement.imports_line hlist hapart) trivial
    | parens gaps names behind =>
      by_cases hgaps : gaps.length ≤ 1
      · rw [statement.imports_parens hlist hapart hgaps, imported, hlist, NameList.IsRead, and_iff_right hgaps,
          ← names.importedNames_eq_iff]
        simp [NameList.originals]
      · have hlength := statement.length_imports_parens hlist hapart (by omega)
        refine iff_of_false (fun heq => ?_) fun h => hgaps h.1
        rw [heq] at hlength
        exact absurd hlength (by simp)
  · have hnone : imports statement.chars = [] := by
      rw [imports_chars, findAll_eq_nil (readsStatements_from? _)
        (statement.from?_eq_none readsLists_namesInParens? hapart) statement.quiet,
        findAll_eq_nil (readsStatements_from? _)
          (statement.from?_eq_none readsLists_namesOnLine? hapart) statement.quiet]
      simp [sorted]
    rw [hnone]
    exact iff_of_false nofun fun h => hapart h.toIsApart

/-- One name a line, and a comment behind the first. -/
def commented : Statement where
  indent := []
  afterFrom := [.gap ' ' rfl]
  dots := 0
  modules := [⟨"pkg".toList, by decide, by decide, by decide⟩]
  beforeImport := [.gap ' ' rfl]
  list := .parens [.gap ' ' rfl]
    { init := [{
        before := .lineEnd none :: List.replicate 4 (.gap ' ' rfl)
        name := ⟨"alpha".toList, by decide, by decide, by decide⟩
        newName := none
        behind := [] }]
      last := {
        before := .gap ' ' rfl :: .gap ' ' rfl :: .lineEnd (some ⟨" first".toList, by decide, by decide⟩) ::
          List.replicate 4 (.gap ' ' rfl)
        name := ⟨"beta".toList, by decide, by decide, by decide⟩
        newName := none
        behind := [] }
      trailing := some [.lineEnd none] } []
  comment := none
  lineEnd := true
  named := .inr (List.cons_ne_nil _ _)
  apart_from := fun _ => List.cons_ne_nil _ _
  apart_import := fun _ => List.cons_ne_nil _ _

/-- Its second name is lost. -/
theorem imports_commented :
    commented.chars = "from pkg import (\n    alpha,  # first\n    beta,\n)\n".toList ∧
      commented.imported = ⟨"pkg", ["alpha", "beta"]⟩ ∧
      imports commented.chars = [⟨"pkg", ["alpha"]⟩] ∧ imports commented.chars ≠ [commented.imported] := by
  have hapart : commented.IsApart :=
    ⟨List.cons_ne_nil _ _, List.cons_ne_nil _ _, by simp [commented]; decide⟩
  have himported : commented.imported = ⟨"pkg", ["alpha", "beta"]⟩ := by decide
  have himports : imports commented.chars = [⟨"pkg", ["alpha"]⟩] := by
    rw [commented.imports_parens rfl hapart (by decide)]
    decide
  refine ⟨by decide, himported, himports, ?_⟩
  rw [himports, himported]
  decide

end Statement

end CodeReview.Dependency.Python
