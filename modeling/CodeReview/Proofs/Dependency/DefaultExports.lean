import CodeReview.Dependency.JavaScript
import CodeReview.Proofs.Text.Chars
import CodeReview.Proofs.Text.Keywords
import Mathlib.Data.Option.Basic

/-!
# Default exports

A name that is exported as the default, in each of the four ways to do so. `function` and `class` are read in
front of a name without a look at how they end, so that an exported value whose name opens with one of them is
listed under what is left of its name.

* `Quiet`: nothing but an empty export list is read behind the start of such a text.
* `exports_eq_singleton_iff`: only what is read as default exports is listed.
* `exports_default_iff`: which of the texts list the name itself.
-/

namespace CodeReview.Dependency.JavaScript

open Text Scan

/-! ## Texts -/

/-- A name that can be exported as the default. -/
structure Name where
  chars : List Char
  starts : chars.head?.any isNameStart = true
  isNameChar_of_mem : ∀ c ∈ chars, isNameChar c = true
  notMem_unnamed : String.ofList chars ∉ unnamed

/-- The ways to export a name as the default. -/
inductive DefaultForm
  | value
  | function
  | asyncFunction
  | classBody
  deriving DecidableEq, Repr

namespace DefaultForm

/-- What stands between `default` and the name. -/
def keywords : DefaultForm → String
  | value => ""
  | function => "function "
  | asyncFunction => "async function "
  | classBody => "class "

/-- What stands behind the name. -/
def ending : DefaultForm → String
  | value => ";"
  | function | asyncFunction => "() \x7b\x7d"
  | classBody => " \x7b\x7d"

/-- What stands behind `export default`. -/
def named (form : DefaultForm) (name : Name) : List Char :=
  form.keywords.toList ++ (name.chars ++ form.ending.toList)

/-- What stands behind `export`. -/
def body (form : DefaultForm) (name : Name) : List Char := "default ".toList ++ form.named name

def text (form : DefaultForm) (name : Name) : List Char := "export ".toList ++ form.body name

end DefaultForm

/-! ## Names -/

section Names

variable {c : Char} (name : Name)

theorem isBlank_of_isNameChar (h : isNameChar c = true) : isBlank c = false := by
  rw [isNameChar, Bool.or_eq_true, beq_iff_eq] at h
  rcases h with hword | rfl
  · exact isBlank_of_isWord hword
  · rfl

theorem Name.unbroken : ∀ c ∈ name.chars, isBlank c = false := fun c hc =>
  isBlank_of_isNameChar (name.isNameChar_of_mem c hc)

theorem Name.notMem (h : isNameChar c = false) : c ∉ name.chars := by
  intro hc
  rw [name.isNameChar_of_mem c hc] at h
  exact nomatch h

theorem Name.exists_cons : ∃ c cs, name.chars = c :: cs ∧ isNameStart c = true := by
  have hstarts := name.starts
  cases hchars : name.chars with
  | nil =>
    rw [hchars] at hstarts
    exact nomatch hstarts
  | cons c cs =>
    rw [hchars] at hstarts
    exact ⟨c, cs, rfl, hstarts⟩

theorem Name.blanks_append (rest : List Char) : blanks (name.chars ++ rest) = name.chars ++ rest := by
  obtain ⟨c, cs, hchars, -⟩ := name.exists_cons
  apply blanks_of_head?
  rw [hchars]
  rintro d ⟨⟩
  exact name.unbroken c (by simp [hchars])

theorem Name.name?_append {rest : List Char} (hrest : ∀ c ∈ rest.head?, isNameChar c = false) :
    name? (name.chars ++ rest) = some (name.chars, rest) := by
  obtain ⟨c, cs, hchars, hc⟩ := name.exists_cons
  have hrun : run? isNameChar (name.chars ++ rest) = some (name.chars, rest) :=
    run?_append (by simp [hchars]) name.isNameChar_of_mem hrest
  rw [name?, hrun, hchars]
  simp [hc]

end Names

/-! ## Other statements -/

/-- Behind `export` and white space nothing stands but empty braces. -/
def Quiet (cs : List Char) : Prop :=
  ∀ suffix rest, suffix <:+ cs → wordAndBlanks? "export" suffix = some rest → rest = "\x7b\x7d".toList

section Quiet

variable {front cs : List Char}

theorem quiet_of_unbroken (h : ∀ c ∈ cs, isBlank c = false) : Quiet cs := by
  intro suffix rest hsuffix hrest
  rw [wordAndBlanks?_eq_none "export" fun c hc => h c (hsuffix.subset hc)] at hrest
  exact nomatch hrest

theorem Quiet.word (h : Quiet cs) (hfront : ∀ c ∈ front, isBlank c = false) (hword : ¬"export".toList <:+ front) :
    Quiet (front ++ ' ' :: cs) := by
  intro suffix rest hsuffix hrest
  rcases wordAndBlanks?_of_suffix (by decide) hfront (by decide) hsuffix hrest with ⟨hend, -⟩ | hlater
  · exact absurd hend hword
  · exact h suffix rest hlater hrest

theorem quiet_braces (hfront : ∀ c ∈ front, isBlank c = false) : Quiet (front ++ " \x7b\x7d".toList) := by
  intro suffix rest hsuffix hrest
  have hbraces : Quiet "\x7b\x7d".toList := quiet_of_unbroken (by decide)
  rcases wordAndBlanks?_of_suffix (by decide) hfront (by decide) hsuffix hrest with ⟨-, heq⟩ | hlater
  · exact heq
  · exact hbraces suffix rest hlater hrest

end Quiet

section Others

variable (form : DefaultForm) (name : Name)

theorem Name.quiet_ending : Quiet (name.chars ++ form.ending.toList) := by
  cases form with
  | value =>
    have hvalue : ∀ c ∈ name.chars ++ ";".toList, isBlank c = false :=
      List.forall_mem_append.2 ⟨name.unbroken, by decide⟩
    exact quiet_of_unbroken hvalue
  | function | asyncFunction =>
    have hcall : ∀ c ∈ name.chars ++ "()".toList, isBlank c = false :=
      List.forall_mem_append.2 ⟨name.unbroken, by decide⟩
    have hquiet := quiet_braces hcall
    rw [List.append_assoc] at hquiet
    exact hquiet
  | classBody => exact quiet_braces name.unbroken

theorem quiet_body : Quiet (form.body name) := by
  refine Quiet.word ?_ (show ∀ c ∈ "default".toList, isBlank c = false by decide) (by decide)
  have hending := name.quiet_ending form
  cases form with
  | value => exact hending
  | function =>
    exact Quiet.word hending (show ∀ c ∈ "function".toList, isBlank c = false by decide) (by decide)
  | asyncFunction =>
    refine Quiet.word ?_ (show ∀ c ∈ "async".toList, isBlank c = false by decide) (by decide)
    exact Quiet.word hending (show ∀ c ∈ "function".toList, isBlank c = false by decide) (by decide)
  | classBody =>
    exact Quiet.word hending (show ∀ c ∈ "class".toList, isBlank c = false by decide) (by decide)

variable {form name} {cs rest : List Char}

/-- Behind `export` stands the statement itself, or empty braces where a name ends in `export`. -/
theorem export_of_suffix (hsuffix : cs <:+ form.text name) (h : wordAndBlanks? "export" cs = some rest) :
    rest = form.body name ∨ rest = "\x7b\x7d".toList := by
  rcases wordAndBlanks?_of_suffix (by decide) (show ∀ c ∈ "export".toList, isBlank c = false by decide)
    (by decide) hsuffix h with ⟨-, heq⟩ | hlater
  · exact .inl heq
  · exact .inr (quiet_body form name cs rest hlater h)

/-- The text has no declaration. -/
theorem namedExport?_of_suffix (before : Option Char) (hsuffix : cs <:+ form.text name) :
    namedExport? before cs = none := by
  rw [namedExport?]
  cases atWordStart before with
  | false => rfl
  | true =>
    cases hexport : wordAndBlanks? "export" cs with
    | none => rfl
    | some rest =>
      rcases export_of_suffix hsuffix hexport with rfl | rfl
      · rfl
      · rfl

/-- The text has no export list, or an empty one. -/
theorem exportList?_of_suffix {before : Option Char} {list : List Char} (hsuffix : cs <:+ form.text name)
    (h : exportList? before cs = some (list, rest)) : list = [] ∧ rest = [] := by
  rw [exportList?] at h
  cases hstart : atWordStart before with
  | false =>
    rw [hstart] at h
    exact nomatch h
  | true =>
    cases hexport : wordAndBlanks? "export" cs with
    | none =>
      rw [hstart, hexport] at h
      exact nomatch h
    | some behind =>
      rw [hstart, hexport] at h
      rcases export_of_suffix hsuffix hexport with rfl | rfl
      · exact nomatch h
      · obtain ⟨rfl, rfl⟩ := Prod.mk.inj (Option.some.inj h)
        exact ⟨rfl, rfl⟩

theorem dot_notMem_text : '.' ∉ form.text name := by
  have hname : '.' ∉ name.chars := name.notMem (by decide)
  have hkeywords : '.' ∉ form.keywords.toList := by
    cases form <;> decide
  have hending : '.' ∉ form.ending.toList := by
    cases form <;> decide
  unfold DefaultForm.text DefaultForm.body DefaultForm.named
  refine List.not_mem_append (by decide) (List.not_mem_append (by decide) ?_)
  exact List.not_mem_append hkeywords (List.not_mem_append hname hending)

theorem exportsProperty?_eq_none (before : Option Char) (h : '.' ∉ cs) : exportsProperty? before cs = none := by
  have hmodule : word? "module." cs = none := word?_eq_none (c := '.') (by decide) h
  have hexports : word? "exports." cs = none := word?_eq_none (c := '.') (by decide) h
  rw [exportsProperty?, hmodule, Option.getD_none, hexports]
  cases atWordStart before <;> rfl

theorem moduleExports?_eq_none (before : Option Char) (h : '.' ∉ cs) : moduleExports? before cs = none := by
  have hmodule : word? "module.exports" cs = none := word?_eq_none (c := '.') (by decide) h
  rw [moduleExports?, hmodule]
  cases atWordStart before <;> rfl

theorem defaultExport?_eq_none (before : Option Char) (h : 'x' ∉ cs) : defaultExport? before cs = none := by
  have hexport : word? "export" cs = none := word?_eq_none (c := 'x') (by decide) h
  rw [defaultExport?, wordAndBlanks?, hexport]
  cases atWordStart before <;> rfl

/-- What export lists come to is nothing. -/
theorem ofList_eq_of_exportList? {find : Find (List Char)}
    (h : find ∈ (findAll exportList? (form.text name)).flatMap fun (at_, list) =>
      (Chars.splitOn ',' list).map fun item => (at_, listedName item)) : String.ofList find.2 = "" := by
  have hempty : ∀ find ∈ findAll exportList? (form.text name), find.2 = [] := by
    refine forall_mem_findFrom (P := (· = [])) fun before suffix list rest hsuffix hlist => ?_
    obtain ⟨hlist, hrest⟩ := exportList?_of_suffix hsuffix hlist
    exact ⟨hlist, hrest ▸ List.nil_suffix⟩
  obtain ⟨⟨position, list⟩, hlist, hmem⟩ := List.mem_flatMap.1 h
  obtain rfl : list = [] := hempty _ hlist
  obtain rfl := List.mem_singleton.1 hmem
  rfl

/-- Only what is read as default exports is listed. -/
theorem exports_eq_singleton_iff {t : String} (ht : t ≠ "") : exports (form.text name) = [t] ↔
    (∃ find ∈ findAll defaultExport? (form.text name), String.ofList find.2 = t) ∧
      ∀ find ∈ findAll defaultExport? (form.text name),
        String.ofList find.2 = "" ∨ String.ofList find.2 = t := by
  have hnamed : findAll namedExport? (form.text name) = [] :=
    findFrom_eq_nil_of_suffix fun before _ hsuffix => namedExport?_of_suffix before hsuffix
  have hproperties : findAll exportsProperty? (form.text name) = [] :=
    findFrom_eq_nil_of_notMem (c := '.') (fun before _ h => exportsProperty?_eq_none before h) dot_notMem_text
  have hobjects : findAll moduleObject? (form.text name) = [] := by
    refine findFrom_eq_nil_of_notMem (c := '.') (fun before cs h => ?_) dot_notMem_text
    rw [moduleObject?, moduleExports?_eq_none before h]
    rfl
  have hassigned : findAll assignedName? (form.text name) = [] := by
    refine findFrom_eq_nil_of_notMem (c := '.') (fun before cs h => ?_) dot_notMem_text
    rw [assignedName?, moduleExports?_eq_none before h]
    rfl
  rw [exports, hnamed, hproperties, hobjects, hassigned, names_eq_singleton_iff ht]
  simp only [List.flatMap_nil, List.append_nil, List.mem_append]
  constructor
  · rintro ⟨⟨find, hfind | hfind, rfl⟩, hall⟩
    · exact ⟨⟨find, hfind, rfl⟩, fun find hfind => hall find (.inl hfind)⟩
    · exact absurd (ofList_eq_of_exportList? hfind) ht
  · rintro ⟨⟨find, hfind, rfl⟩, hall⟩
    refine ⟨⟨find, .inl hfind, rfl⟩, ?_⟩
    rintro other (hother | hother)
    · exact hall other hother
    · exact .inl (ofList_eq_of_exportList? hother)

end Others

/-! ## Names and keywords -/

section Reading

variable {form : DefaultForm} {name : Name} {rest found behind : List Char}

/-- The name opens with a keyword that may stand in front of a name. -/
def Name.OpensWithKeyword (name : Name) : Prop :=
  "function".toList <+: name.chars ∨ "class".toList <+: name.chars

theorem blanks_named (form : DefaultForm) (name : Name) : blanks (form.named name) = form.named name := by
  cases form with
  | value => exact name.blanks_append ";".toList
  | function | asyncFunction | classBody => rfl

/-- What a default export is read as behind its keywords: a name, if it is one, and the text behind it. -/
def nameIn (cs : List Char) : List Char × List Char :=
  match name? cs with
  | some (found, behind) => (if unnamed.contains (String.ofList found) then "default".toList else found, behind)
  | none => ("default".toList, cs)

theorem defaultExport?_text (hrest : ((asyncFunction? (form.named name)).or
      (classKeyword? (form.named name))).getD (form.named name) = rest) :
    defaultExport? none (form.text name) = some (nameIn (blanks rest)) := by
  have hdefault : wordAndBlanks? "default" (form.body name) = some (form.named name) :=
    congrArg some (blanks_named form name)
  have hbody : (wordAndBlanks? "export" (form.text name) >>= wordAndBlanks? "default") =
      some (form.named name) := hdefault
  have hstart : atWordStart none = true := rfl
  unfold defaultExport? nameIn
  rw [hbody]
  simp only [hstart, guard_true, Option.pure_def, Option.bind_eq_bind, Option.bind_some, hrest]
  cases name? (blanks rest) with
  | none => rfl
  | some found => rfl

theorem word?_value {keyword : String} (hkeyword : ';' ∉ keyword.toList) (h : ¬keyword.toList <+: name.chars) :
    word? keyword (DefaultForm.value.named name) = none := by
  by_contra hne
  exact h (prefix_of_word?_ne_none hkeyword hne)

theorem word?_value_append {keyword : String} {more : List Char} (h : name.chars = keyword.toList ++ more) :
    word? keyword (DefaultForm.value.named name) = some (more ++ [';']) := by
  have hnamed : DefaultForm.value.named name = keyword.toList ++ (more ++ [';']) := by
    show name.chars ++ [';'] = keyword.toList ++ (more ++ [';'])
    rw [h, List.append_assoc]
  rw [hnamed]
  exact word?_append keyword (more ++ [';'])

/-- A value has no white space in it, so that no keyword in front of another one is seen. -/
theorem keywords_value (name : Name) :
    (asyncFunction? (DefaultForm.value.named name)).or (classKeyword? (DefaultForm.value.named name)) =
      (functionKeyword? (DefaultForm.value.named name)).or (word? "class" (DefaultForm.value.named name)) := by
  have hunbroken : ∀ c ∈ name.chars ++ ";".toList, isBlank c = false :=
    List.forall_mem_append.2 ⟨name.unbroken, by decide⟩
  have hnone (word : String) : wordAndBlanks? word (DefaultForm.value.named name) = none :=
    wordAndBlanks?_eq_none word hunbroken
  rw [asyncFunction?, classKeyword?, hnone "async", hnone "abstract"]
  rfl

theorem keywords_value_eq_none (h : ¬name.OpensWithKeyword) :
    (asyncFunction? (DefaultForm.value.named name)).or (classKeyword? (DefaultForm.value.named name)) = none := by
  obtain ⟨hfunction, hclass⟩ := not_or.1 h
  rw [keywords_value, functionKeyword?, word?_value (by decide) hfunction, word?_value (by decide) hclass]
  rfl

/-- A keyword that the name of a value opens with is taken off it. -/
theorem exists_keywords_value (h : name.OpensWithKeyword) : ∃ keyword ∈ ["function", "class"], ∃ more,
    name.chars = keyword.toList ++ more ∧ (asyncFunction? (DefaultForm.value.named name)).or
      (classKeyword? (DefaultForm.value.named name)) = some (more ++ [';']) := by
  rw [keywords_value, functionKeyword?]
  by_cases hfunction : "function".toList <+: name.chars
  · obtain ⟨more, hmore⟩ := hfunction
    have hstar : '*' ∉ more ++ [';'] := by
      have hname : '*' ∉ name.chars := name.notMem (by decide)
      rw [← hmore] at hname
      exact List.not_mem_append (fun hmem => hname (List.mem_append_right _ hmem)) (by decide)
    refine ⟨"function", by simp, more, hmore.symm, ?_⟩
    rw [word?_value_append hmore.symm]
    simp only [Option.bind_eq_bind, Option.bind_some, char?_eq_none hstar]
    rfl
  · obtain ⟨more, hmore⟩ := h.resolve_left hfunction
    refine ⟨"class", by simp, more, hmore.symm, ?_⟩
    rw [word?_value (by decide) hfunction, word?_value_append hmore.symm]
    rfl

theorem head?_ending (form : DefaultForm) : ∀ c ∈ form.ending.toList.head?, isNameChar c = false := by
  cases form with
  | value =>
    intro c hc
    obtain rfl : ';' = c := Option.some.inj hc
    rfl
  | function | asyncFunction =>
    intro c hc
    obtain rfl : '(' = c := Option.some.inj hc
    rfl
  | classBody =>
    intro c hc
    obtain rfl : ' ' = c := Option.some.inj hc
    rfl

theorem Name.nameIn_append (name : Name) (form : DefaultForm) :
    nameIn (name.chars ++ form.ending.toList) = (name.chars, form.ending.toList) := by
  have hcontains : unnamed.contains (String.ofList name.chars) = false := by
    simpa using name.notMem_unnamed
  rw [nameIn, name.name?_append (head?_ending form)]
  simp only [hcontains]
  rfl

/-- The name is read as it is, but for a value whose name opens with a keyword. -/
theorem defaultExport?_of_not (h : form = .value → ¬name.OpensWithKeyword) :
    defaultExport? none (form.text name) = some (name.chars, form.ending.toList) := by
  have hblanks := name.blanks_append form.ending.toList
  have hname := name.nameIn_append form
  cases form with
  | value =>
    have hkeywords := keywords_value_eq_none (h rfl)
    rw [defaultExport?_text (congrArg (Option.getD · (DefaultForm.value.named name)) hkeywords)]
    exact congrArg some ((congrArg nameIn hblanks).trans hname)
  | function | asyncFunction | classBody =>
    rw [defaultExport?_text rfl]
    exact congrArg some ((congrArg nameIn hblanks).trans hname)

/-- What is read is `default`, or what the text opens with. -/
theorem nameIn_cases (cs : List Char) :
    ((nameIn cs).1 = "default".toList ∨ (nameIn cs).1 ≠ [] ∧ (nameIn cs).1 <+: cs) ∧ (nameIn cs).2 <:+ cs := by
  unfold nameIn
  split
  · next found behind hname =>
    obtain ⟨-, -, hrun⟩ := Option.bind_eq_some_iff.1 hname
    obtain ⟨hne, -, rfl⟩ := eq_of_run? hrun
    refine ⟨?_, List.suffix_append found behind⟩
    dsimp only
    split
    · exact .inl rfl
    · exact .inr ⟨hne, List.prefix_append found behind⟩
  · exact ⟨.inl rfl, List.suffix_rfl⟩

/-- What is read then is another name. -/
theorem exists_of_opensWithKeyword (h : name.OpensWithKeyword) : ∃ found behind,
    defaultExport? none (DefaultForm.value.text name) = some (found, behind) ∧ found ≠ [] ∧ found ≠ name.chars ∧
      behind.length < (DefaultForm.value.text name).length := by
  obtain ⟨keyword, hkeyword, more, hmore, hrest⟩ := exists_keywords_value h
  obtain ⟨hlength, hdefault⟩ := (by decide : ∀ keyword ∈ ["function", "class"],
    5 ≤ keyword.toList.length ∧ ¬keyword.toList <+: "default".toList) keyword hkeyword
  have hlengths : name.chars.length = keyword.toList.length + more.length := by
    rw [hmore, List.length_append]
  have htext : (DefaultForm.value.text name).length = name.chars.length + 16 := by
    show ("export default ".toList ++ (name.chars ++ [';'])).length = _
    rw [List.length_append, List.length_append]
    show 15 + (_ + 1) = _
    omega
  have hblanks : blanks (more ++ [';']) = more ++ [';'] := by
    have hmoreUnbroken : ∀ c ∈ more ++ [';'], isBlank c = false :=
      List.forall_mem_append.2 ⟨fun c hc => name.unbroken c (hmore ▸ List.mem_append_right _ hc), by decide⟩
    exact blanks_of_head? fun c hc => hmoreUnbroken c (List.mem_of_mem_head? hc)
  have hread : defaultExport? none (DefaultForm.value.text name) = some (nameIn (more ++ [';'])) := by
    rw [defaultExport?_text (congrArg (Option.getD · (DefaultForm.value.named name)) hrest)]
    exact congrArg (some <| nameIn ·) hblanks
  obtain ⟨hfound, hbehind⟩ := nameIn_cases (more ++ [';'])
  generalize nameIn (more ++ [';']) = read at hread hfound hbehind
  obtain ⟨found, behind⟩ := read
  dsimp only at hfound hbehind
  have hle := hbehind.length_le
  rw [List.length_append, List.length_singleton] at hle
  refine ⟨found, behind, hread, ?_, ?_, by omega⟩
  · rcases hfound with rfl | ⟨hne, -⟩
    · decide
    · exact hne
  · rintro rfl
    rcases hfound with heq | ⟨-, hprefix⟩
    · exact hdefault ⟨more, hmore.symm.trans heq⟩
    · have hle := hprefix.length_le
      rw [List.length_append, List.length_singleton] at hle
      omega

/-! ## What is listed -/

theorem findAll_defaultExport? (hread : defaultExport? none (form.text name) = some (found, behind))
    (hlt : behind.length < (form.text name).length) (hbehind : 'x' ∉ behind) :
    findAll defaultExport? (form.text name) = [(0, found)] := by
  rw [findAll, findFrom_of_some hread hlt]
  exact congrArg ((0, found) :: ·)
    (findFrom_eq_nil_of_notMem (c := 'x') (fun before _ h => defaultExport?_eq_none before h) hbehind)

/-- The name itself is listed, and nothing else, but for a value whose name opens with a keyword. -/
theorem exports_default_iff (form : DefaultForm) (name : Name) :
    exports (form.text name) = [String.ofList name.chars] ↔ ¬(form = .value ∧ name.OpensWithKeyword) := by
  have hne : String.ofList name.chars ≠ "" := by
    obtain ⟨c, cs, hchars, -⟩ := name.exists_cons
    simp [hchars]
  rw [exports_eq_singleton_iff hne]
  constructor
  · rintro ⟨-, hall⟩ ⟨rfl, hkeyword⟩
    obtain ⟨found, behind, hread, hfound, hother, hlt⟩ := exists_of_opensWithKeyword hkeyword
    rw [findAll, findFrom_of_some hread hlt] at hall
    rcases hall _ List.mem_cons_self with heq | heq
    · exact hfound (by simpa using heq)
    · exact hother (String.ofList_injective heq)
  · intro hnot
    have hread := defaultExport?_of_not fun hvalue hkeyword => hnot ⟨hvalue, hkeyword⟩
    have hlt : form.ending.toList.length < (form.text name).length := by
      unfold DefaultForm.text DefaultForm.body DefaultForm.named
      rw [List.length_append, List.length_append, List.length_append, List.length_append]
      show _ < 7 + _
      omega
    have hending : 'x' ∉ form.ending.toList := by
      cases form <;> decide
    rw [findAll_defaultExport? hread hlt hending]
    exact ⟨⟨_, List.mem_singleton_self _, rfl⟩, fun find hfind => .inr (by rw [List.mem_singleton.1 hfind])⟩

/-- A name that opens with `function`. -/
def functional : Name where
  chars := "functional".toList
  starts := by decide
  isNameChar_of_mem := by decide
  notMem_unnamed := by decide

/-- A value with that name is listed under the end of it. -/
theorem exports_functional : DefaultForm.value.text functional = "export default functional;".toList ∧
    exports (DefaultForm.value.text functional) = ["al"] ∧
      exports (DefaultForm.value.text functional) ≠ [String.ofList functional.chars] := by
  have hread : defaultExport? none (DefaultForm.value.text functional) = some ("al".toList, ";".toList) := by
    decide
  have hne : "al" ≠ "" := by
    decide
  have hexports : exports (DefaultForm.value.text functional) = ["al"] := by
    rw [exports_eq_singleton_iff hne, findAll_defaultExport? hread (by decide) (by decide)]
    decide
  refine ⟨by decide, hexports, ?_⟩
  rw [hexports]
  decide

end Reading

end CodeReview.Dependency.JavaScript
