import CodeReview.Dependency.Extraction
import CodeReview.Proofs.Dependency.ClassIndex
import CodeReview.Proofs.Dependency.Headers

/-!
# Reading type headers

A header in any layout is read as the types that it lists.

* `findFirst?_keyword`: the word in front of a list is found, because nothing in front of it is that word.
* `Header.extendsList?_of_some`, `Header.implementsList?_of_some`: the two lists are told apart.
* `Clause.typeNames_list`: a list is read type by type.
* `Header.heritage_chars`, `Header.heritageEdges_chars`: what a header is read as, and the edges that come of it.
-/

namespace CodeReview.Dependency.Java

open Text Scan

/-! ## Words -/

section Words

variable {word : String} {before : Option Char} {front cs : List Char}

theorem isWord_of_mem_clauseWords : ∀ word ∈ clauseWords, ∀ c ∈ word, isWord c = true := by decide

theorem ne_nil_of_mem_clauseWords : ∀ word ∈ clauseWords, word ≠ [] := by decide

theorem atWordEnd_of_someBlanks? (h : someBlanks? cs ≠ none) : atWordEnd cs = true := by
  cases cs with
  | nil => rfl
  | cons c cs =>
    rw [someBlanks?] at h
    split at h
    · next hc => simp [atWordEnd, isWord_of_isBlank hc]
    · exact absurd rfl h

theorem readsWord_keyword? (word : String) : ReadsWord word.toList (keyword? word) := by
  intro before cs h
  refine ⟨of_guard_ne_none h, ?_⟩
  have hword : wordAndBlanks? word cs ≠ none := fun hnone => by
    simp only [keyword?, hnone, Option.bind_eq_bind, Option.bind_none, Option.bind_fun_none] at h
    exact absurd rfl h
  obtain ⟨found, hfound⟩ := Option.ne_none_iff_exists'.1 hword
  obtain ⟨rest, hrest, hblanks⟩ := Option.bind_eq_some_iff.1 hfound
  refine ⟨rest, Chars.dropPrefix?_eq_some_iff.1 hrest, atWordEnd_of_someBlanks? ?_⟩
  rw [hblanks]
  exact Option.some_ne_none found

theorem readsWord_implementsWord? : ReadsWord "implements".toList implementsWord? := by
  intro before cs h
  refine ⟨of_guard_ne_none h, ?_⟩
  cases hword : word? "implements" cs with
  | none =>
    simp only [implementsWord?, hword, Option.bind_eq_bind, Option.bind_none, Option.bind_fun_none] at h
    exact absurd rfl h
  | some rest =>
    refine ⟨rest, Chars.dropPrefix?_eq_some_iff.1 hword, ?_⟩
    by_contra hend
    simp only [implementsWord?, hword, Option.bind_eq_bind, Option.bind_some, guard, if_neg hend] at h
    exact absurd (Option.bind_fun_none _) h

theorem keyword?_append (word : String) (gap : Gap) (cs : List Char) (hstart : atWordStart before = true) :
    keyword? word before (word.toList ++ (gap.chars ++ cs)) = some ((), blanks cs) := by
  simp only [keyword?, wordAndBlanks?, word?_append, hstart, Option.bind_eq_bind, Option.bind_some,
    someBlanks?_append gap.ne_nil gap.isBlank_of_mem]
  rfl

/-- White space in front of a word ends in a character that the word may start behind. -/
theorem Gap.exists_last (gap : Gap) : ∃ init c, gap.chars = init ++ [c] ∧ (∀ c ∈ init, isBlank c = true) ∧
    isWord c = false := by
  have hblank := gap.isBlank_of_mem
  rw [← List.dropLast_concat_getLast gap.ne_nil, List.forall_mem_append] at hblank
  exact ⟨_, _, (List.dropLast_concat_getLast gap.ne_nil).symm, hblank.1,
    isWord_of_isBlank (hblank.2 _ (List.mem_singleton_self _))⟩

theorem Gap.atWordEnd_append (gap : Gap) (cs : List Char) : atWordEnd (gap.chars ++ cs) = true := by
  obtain ⟨c, others, hchars⟩ := List.exists_cons_of_ne_nil gap.ne_nil
  have hc : isWord c = false := isWord_of_isBlank (gap.isBlank_of_mem c (by simp [hchars]))
  simp [hchars, atWordEnd, hc]

/-- A keyword is found behind a text that has it nowhere. -/
theorem findFirst?_keyword (hword : word.toList ∈ clauseWords) (hfront : word.toList ∉ wordsOf front)
    (gap behind : Gap) (cs : List Char) :
    findFirst? (keyword? word) (front ++ (gap.chars ++ (word.toList ++ (behind.chars ++ cs)))) =
      some (front ++ gap.chars, (), blanks cs) := by
  obtain ⟨init, c, hgap, hinit, hc⟩ := gap.exists_last
  have hne := ne_nil_of_mem_clauseWords _ hword
  have hnot : word.toList ∉ wordsOf (front ++ init) :=
    (notMem_wordsOf_append_right hne fun c hc => isWord_of_isBlank (hinit c hc)).2 hfront
  have hstart : atWordStart (some c) = true := by simp [atWordStart, hc]
  have hfound := (readsWord_keyword? word).findFirst?_append hne (isWord_of_mem_clauseWords _ hword) hnot hc
    (keyword?_append word behind cs hstart)
  simpa [hgap] using hfound

end Words

/-! ## The words of a list -/

section Lists

variable {word : List Char} {front rest : List Char}

theorem argumentsText_unwritten (arguments : Option Inside) : argumentsText unwritten arguments = [] := by
  cases arguments <;> rfl

theorem Blanks.isWord_eq_false (blanks : Blanks) : ∀ c ∈ blanks.chars, isWord c = false :=
  fun c hc => isWord_of_isBlank (blanks.isBlank_of_mem c hc)

theorem Part.text_unwritten (part : Part) : part.text unwritten =
    part.before.chars ++ (part.name.chars ++ (part.gap.chars ++ part.behind.chars)) := by
  rw [Part.text, argumentsText_unwritten, List.nil_append]

section Free

variable (hword : word ∈ clauseWords)
include hword

theorem Part.notMem_wordsOf_text (part : Part) : word ∉ wordsOf (part.text unwritten) := by
  have hne := ne_nil_of_mem_clauseWords word hword
  have hbehind : ∀ c ∈ part.gap.chars ++ part.behind.chars, isWord c = false :=
    List.forall_mem_append.2 ⟨part.gap.isWord_eq_false, part.behind.isWord_eq_false⟩
  rw [part.text_unwritten, notMem_wordsOf_append hne part.before.isWord_eq_false,
    notMem_wordsOf_append_right hne hbehind, wordsOf_of_word part.name.isWord_of_mem, List.mem_singleton]
  rintro rfl
  exact part.notMem_clauseWords hword

theorem Clause.notMem_wordsOf_list (clause : Clause) : word ∉ wordsOf (clause.list unwritten) := by
  have hne := ne_nil_of_mem_clauseWords word hword
  refine notMem_wordsOf_join hne (by decide) (List.forall_mem_map.2 fun type _ => ?_)
  exact notMem_wordsOf_join hne (by decide)
    (List.forall_mem_map.2 fun part _ => part.notMem_wordsOf_text hword)

/-- A list of types has the word nowhere that stands in front of the other list. -/
theorem Clause.notMem_wordsOf_text {other : String} (hother : other.toList ∈ clauseWords)
    (hne : word ≠ other.toList) (clause : Clause) (hfront : word ∉ wordsOf front) :
    word ∉ wordsOf (front ++ clause.text unwritten other) := by
  have hnil := ne_nil_of_mem_clauseWords word hword
  rw [Clause.text, notMem_wordsOf_append_iff hnil clause.before.ne_nil clause.before.isWord_eq_false,
    notMem_wordsOf_append_iff hnil clause.behind.ne_nil clause.behind.isWord_eq_false,
    wordsOf_of_word (isWord_of_mem_clauseWords _ hother)]
  exact ⟨hfront, by simpa using hne, clause.notMem_wordsOf_list hword⟩

end Free

end Lists

/-! ## The two lists -/

section Splitting

variable {front cs rest : List Char}

/-- What stands in front of the word `implements`, behind one character at least. -/
def untilImplements? : List Char → Option (List Char)
  | [] => none
  | c :: cs =>
    match findFirst?.go implementsWord? [c] (some c) cs with
    | some (list, _, _) => some list
    | none => some (c :: cs)

theorem extendsList?_eq (clause : List Char) : extendsList? clause =
    (findFirst? (keyword? "extends") clause).bind fun found => untilImplements? found.2.2 := by
  rw [extendsList?, Option.bind_eq_bind]
  refine congrArg _ (funext fun (_, _, rest) => ?_)
  cases rest <;> rfl

theorem implementsWord?_append {before : Option Char} (hstart : atWordStart before = true)
    (hrest : atWordEnd rest = true) : implementsWord? before ("implements".toList ++ rest) = some ((), rest) := by
  simp only [implementsWord?, word?_append, hstart, hrest, Option.bind_eq_bind, Option.bind_some]
  rfl

theorem untilImplements?_of_notMem (hne : cs ≠ []) (h : "implements".toList ∉ wordsOf cs) :
    untilImplements? cs = some cs := by
  obtain ⟨c, cs, rfl⟩ := List.exists_cons_of_ne_nil hne
  obtain ⟨hfront, htail⟩ := notMem_wordsOf_of_cons fun hmem => h (List.mem_of_mem_tail hmem)
  rw [untilImplements?, readsWord_implementsWord?.go_eq_none (by decide) (by decide) hfront htail]

theorem untilImplements?_append (hne : front ≠ []) (h : "implements".toList ∉ wordsOf front) (gap : Gap)
    (hrest : atWordEnd rest = true) :
    untilImplements? (front ++ (gap.chars ++ ("implements".toList ++ rest))) = some (front ++ gap.chars) := by
  obtain ⟨c, front, rfl⟩ := List.exists_cons_of_ne_nil hne
  obtain ⟨init, d, hgap, hinit, hd⟩ := gap.exists_last
  have hwhole : "implements".toList ∉ wordsOf (c :: (front ++ init)) :=
    (notMem_wordsOf_append_right (by decide) fun c hc => isWord_of_isBlank (hinit c hc)).2 h
  obtain ⟨hfront, htail⟩ := notMem_wordsOf_of_cons fun hmem => hwhole (List.mem_of_mem_tail hmem)
  have hstart : atWordStart (some d) = true := by simp [atWordStart, hd]
  have hfound := implementsWord?_append hstart hrest
  have hgo := readsWord_implementsWord?.go_append (by decide) (by decide) hfront htail hd hfound [c]
  have htext : c :: front ++ (gap.chars ++ ("implements".toList ++ rest)) =
      c :: (front ++ init ++ d :: ("implements".toList ++ rest)) := by
    rw [hgap]
    simp
  rw [htext, untilImplements?, hgo, hgap]
  simp

theorem blanks_append_of_mem {c : Char} (hc : c ∈ front) (hword : isWord c = true) (rest : List Char) :
    blanks (front ++ rest) = blanks front ++ rest ∧ blanks front ≠ [] := by
  have hne : blanks front ≠ [] := fun hnil =>
    nomatch (isBlank_of_isWord hword).symm.trans (List.dropWhile_eq_nil_iff.1 hnil c hc)
  refine ⟨?_, hne⟩
  rw [blanks, List.dropWhile_append]
  exact if_neg fun hempty => hne (List.isEmpty_iff.1 hempty)

theorem TypeRef.exists_mem_text (type : TypeRef) : ∃ c ∈ type.text unwritten, isWord c = true := by
  obtain ⟨c, others, hchars⟩ := List.exists_cons_of_ne_nil type.last.name.ne_nil
  have hc : isWord c = true := type.last.name.isWord_of_mem c (by simp [hchars])
  have hpart : c ∈ type.last.text unwritten := by simp [Part.text, hchars]
  have hpoint : c ≠ '.' := by
    rintro rfl
    exact absurd hc (by decide)
  exact ⟨c, (Chars.mem_join_iff hpoint).2 ⟨_, List.mem_map_of_mem (by simp), hpart⟩, hc⟩

theorem Clause.text_append (write : Inside → List Char) (word : String) (clause : Clause) (rest : List Char) :
    clause.text write word ++ rest = clause.before.chars ++ (word.toList ++ (clause.behind.chars ++
      (clause.list write ++ rest))) := by
  rw [Clause.text, List.append_assoc, List.append_assoc, List.append_assoc]

theorem Clause.exists_mem_list (clause : Clause) : ∃ c ∈ clause.list unwritten, isWord c = true := by
  obtain ⟨type, types, htypes⟩ := List.exists_cons_of_ne_nil clause.ne_nil
  obtain ⟨c, hc, hword⟩ := type.exists_mem_text
  have hcomma : c ≠ ',' := by
    rintro rfl
    exact absurd hword (by decide)
  exact ⟨c, (Chars.mem_join_iff hcomma).2 ⟨_, List.mem_map_of_mem (by simp [htypes]), hc⟩, hword⟩

/-- Behind the white space in front, a list is no word that stands in front of a list. -/
theorem Clause.notMem_wordsOf_blanks {word : List Char} (hword : word ∈ clauseWords) (clause : Clause) :
    word ∉ wordsOf (blanks (clause.list unwritten)) := by
  have hlist := clause.notMem_wordsOf_list hword
  rw [← @List.takeWhile_append_dropWhile _ isBlank (clause.list unwritten),
    notMem_wordsOf_append (ne_nil_of_mem_clauseWords word hword)
      fun c hc => isWord_of_isBlank (List.mem_takeWhile_imp hc)] at hlist
  exact hlist

end Splitting

namespace Header

variable (header : Header) {clause : Clause}

theorem clause_unwritten : header.clause unwritten = header.behindName.chars ++
    (header.extendedText unwritten ++ (header.implementedText unwritten ++ header.behind.chars)) := by
  rw [Header.clause, argumentsText_unwritten, List.nil_append]

theorem notMem_wordsOf_behindName {word : List Char} (hword : word ∈ clauseWords) :
    word ∉ wordsOf header.behindName.chars :=
  notMem_wordsOf (ne_nil_of_mem_clauseWords word hword) header.behindName.isWord_eq_false

/-- The list behind `extends` goes up to the other list or to the end. -/
theorem extendsList?_of_some (h : header.extended = some clause) : ∃ behind : Blanks,
    extendsList? (header.clause unwritten) = some (blanks (clause.list unwritten ++ behind.chars)) := by
  obtain ⟨c, hc, hword⟩ := clause.exists_mem_list
  have hlist (rest : List Char) := (blanks_append_of_mem hc hword rest).1
  have hne := (blanks_append_of_mem hc hword []).2
  have hblanks : "implements".toList ∉ wordsOf (blanks (clause.list unwritten)) :=
    clause.notMem_wordsOf_blanks (by decide)
  have hfound : extendsList? (header.clause unwritten) = untilImplements? (blanks (clause.list unwritten) ++
      (header.implementedText unwritten ++ header.behind.chars)) := by
    rw [clause_unwritten, extendedText, h, Option.elim_some, Clause.text_append, extendsList?_eq,
      findFirst?_keyword (by decide) (header.notMem_wordsOf_behindName (by decide)), hlist]
    rfl
  rw [hfound, implementedText]
  cases header.implemented with
  | none =>
    refine ⟨header.behind, ?_⟩
    rw [hlist, Option.elim_none, List.nil_append]
    refine untilImplements?_of_notMem (List.append_ne_nil_of_left_ne_nil hne _) ?_
    exact (notMem_wordsOf_append_right (by decide) header.behind.isWord_eq_false).2 hblanks
  | some other =>
    refine ⟨other.before.toBlanks, ?_⟩
    rw [hlist, Option.elim_some, Clause.text_append]
    exact untilImplements?_append hne hblanks other.before (other.behind.atWordEnd_append _)

theorem extendsList?_of_none (h : header.extended = none) : extendsList? (header.clause unwritten) = none := by
  have hfree : "extends".toList ∉ wordsOf (header.clause unwritten) := by
    have hname : "extends".toList ∉ wordsOf header.behindName.chars :=
      header.notMem_wordsOf_behindName (by decide)
    rw [clause_unwritten, extendedText, h, Option.elim_none, List.nil_append, ← List.append_assoc,
      notMem_wordsOf_append_right (by decide) header.behind.isWord_eq_false, implementedText]
    cases header.implemented with
    | none => rwa [Option.elim_none, List.append_nil]
    | some other => exact other.notMem_wordsOf_text (by decide) (by decide) (by decide) hname
  rw [extendsList?_eq, (readsWord_keyword? "extends").findFirst?_eq_none (by decide) (by decide) hfree]
  rfl

/-- In front of the word `implements` it stands nowhere. -/
theorem notMem_wordsOf_extendedText :
    "implements".toList ∉ wordsOf (header.behindName.chars ++ header.extendedText unwritten) := by
  have hname : "implements".toList ∉ wordsOf header.behindName.chars :=
    header.notMem_wordsOf_behindName (by decide)
  rw [extendedText]
  cases header.extended with
  | none => rwa [Option.elim_none, List.append_nil]
  | some clause => exact clause.notMem_wordsOf_text (by decide) (by decide) (by decide) hname

theorem implementsList?_of_some (h : header.implemented = some clause) :
    implementsList? (header.clause unwritten) = some (blanks (clause.list unwritten ++ header.behind.chars)) := by
  rw [clause_unwritten, implementedText, h, Option.elim_some, Clause.text_append, ← List.append_assoc,
    implementsList?, findFirst?_keyword (by decide) header.notMem_wordsOf_extendedText]
  rfl

theorem implementsList?_of_none (h : header.implemented = none) :
    implementsList? (header.clause unwritten) = none := by
  have hfree : "implements".toList ∉ wordsOf (header.clause unwritten) := by
    rw [clause_unwritten, implementedText, h, Option.elim_none, List.nil_append, ← List.append_assoc,
      notMem_wordsOf_append_right (by decide) header.behind.isWord_eq_false]
    exact header.notMem_wordsOf_extendedText
  rw [implementsList?, (readsWord_keyword? "implements").findFirst?_eq_none (by decide) (by decide) hfree]
  rfl

end Header

/-! ## The types of a list -/

section Names

variable {c : Char} {front cs : List Char}

theorem typeNames_append_comma (front cs : List Char) :
    typeNames (front ++ ',' :: cs) = typeNames front ++ typeNames cs := by
  simp only [typeNames, Chars.splitOn_append, List.map_append, List.filter_append]

theorem typeNames_cons_of_isBlank (h : isBlank c = true) (cs : List Char) : typeNames (c :: cs) = typeNames cs := by
  have hcomma : ¬ (c == ',') = true := by
    rintro heq
    rw [beq_iff_eq.1 heq] at h
    exact absurd h (by decide)
  obtain ⟨first, parts, hparts⟩ := List.exists_cons_of_ne_nil (Chars.splitOn_ne_nil ',' cs)
  have hfirst : Chars.trim (c :: first) = Chars.trim first := by
    have htrim := @Chars.trim_append first [c] [] (by simpa using h) (List.forall_mem_nil _)
    rwa [List.append_nil] at htrim
  rw [typeNames, typeNames, Chars.splitOn_cons, if_neg hcomma, hparts, Chars.joinFirst, List.map_cons, hfirst,
    List.map_cons]

/-- White space in front of a list does not count. -/
theorem typeNames_blanks (cs : List Char) : typeNames (blanks cs) = typeNames cs := by
  induction cs with
  | nil => rfl
  | cons c cs ih =>
    rw [blanks, List.dropWhile_cons]
    split
    · next hc => rw [typeNames_cons_of_isBlank hc, ← ih, blanks]
    · rfl

/-- A text without commas names one type at most, by what follows its last point. -/
theorem typeNames_of_notMem (hcomma : ',' ∉ cs) (hc : c ∈ cs) (hword : isWord c = true) :
    typeNames cs = [String.ofList (Chars.trim (Chars.afterLast '.' cs))] := by
  have hne : (Chars.trim cs).isEmpty = false := by
    by_contra hempty
    have hblank := Chars.trim_eq_nil_iff.1 (List.isEmpty_iff.1 (Bool.not_eq_false _ ▸ hempty))
    exact nomatch (isBlank_of_isWord hword).symm.trans (List.all_eq_true.1 hblank c hc)
  rw [typeNames, Chars.splitOn_of_notMem hcomma, ← Chars.trim_afterLast_trim (by decide)]
  simp [hne]

theorem Identifier.trim_chars (name : Identifier) : Chars.trim name.chars = name.chars := by
  refine Chars.trimBoth_eq_self_iff.2 fun c hc => isBlank_of_isWord (name.isWord_of_mem c ?_)
  exact hc.elim List.mem_of_mem_head? List.mem_of_getLast?

theorem Part.trim_text (part : Part) (behind : Blanks) :
    Chars.trim (part.text unwritten ++ behind.chars) = part.name.chars := by
  have hbehind : ∀ c ∈ part.gap.chars ++ part.behind.chars ++ behind.chars, isBlank c = true := by
    simp only [List.forall_mem_append]
    exact ⟨⟨part.gap.isBlank_of_mem, part.behind.isBlank_of_mem⟩, behind.isBlank_of_mem⟩
  calc Chars.trim (part.text unwritten ++ behind.chars)
      = Chars.trim (part.before.chars ++ part.name.chars ++
          (part.gap.chars ++ part.behind.chars ++ behind.chars)) := by
        rw [part.text_unwritten]
        simp only [List.append_assoc]
    _ = Chars.trim part.name.chars := Chars.trim_append part.before.isBlank_of_mem hbehind
    _ = part.name.chars := part.name.trim_chars

/-- A type is looked up by the last of its names. -/
theorem TypeRef.typeNames_text (type : TypeRef) (behind : Blanks) :
    typeNames (type.text unwritten ++ behind.chars) = [type.simpleName] := by
  have hcomma : ',' ∉ type.text unwritten ++ behind.chars :=
    List.not_mem_append (type.notMem_text rfl rfl (fun _ => List.not_mem_nil) (by decide))
      (behind.notMem_chars rfl)
  have hpoint : '.' ∉ type.last.text unwritten ++ behind.chars :=
    List.not_mem_append (type.last.notMem_text rfl rfl fun _ => List.not_mem_nil) (behind.notMem_chars rfl)
  obtain ⟨c, hc, hword⟩ := type.exists_mem_text
  rw [typeNames_of_notMem hcomma (List.mem_append_left _ hc) hword, TypeRef.text, List.map_append,
    List.map_singleton, Chars.afterLast_join hpoint, type.last.trim_text, TypeRef.simpleName]

/-- A list of types is read type by type. -/
theorem Clause.typeNames_list (clause : Clause) (behind : Blanks) :
    typeNames (clause.list unwritten ++ behind.chars) = clause.names := by
  have hlist (types : List TypeRef) (hne : types ≠ []) :
      typeNames (Chars.join [','] (types.map (TypeRef.text unwritten)) ++ behind.chars) =
        types.map TypeRef.simpleName := by
    induction types with
    | nil => exact absurd rfl hne
    | cons type types ih =>
      by_cases htypes : types = []
      · subst htypes
        simpa [Chars.join] using type.typeNames_text behind
      · have htype := type.typeNames_text ⟨[], List.forall_mem_nil _⟩
        rw [List.append_nil] at htype
        rw [List.map_cons, Chars.join_cons (mt List.map_eq_nil_iff.1 htypes), List.append_assoc, List.append_assoc,
          List.singleton_append, typeNames_append_comma, htype, ih htypes]
        rfl
  exact hlist clause.types clause.ne_nil

end Names

/-! ## Whole headers -/

section Ends

theorem Blanks.atWordEnd (blanks : Blanks) : atWordEnd blanks.chars = true :=
  atWordEnd_iff.2 fun c hc => blanks.isWord_eq_false c (List.mem_of_mem_head? hc)

theorem atWordEnd_argumentsText (arguments : Option Inside) :
    atWordEnd (argumentsText Inside.bracketed arguments) = true := by
  cases arguments <;> rfl

theorem atWordEnd_clause (word : String) (clause : Option Clause) :
    atWordEnd (clause.elim [] (Clause.text Inside.bracketed word)) = true := by
  cases clause with
  | none => rfl
  | some clause => exact clause.before.atWordEnd_append _

end Ends

namespace Header

variable (header : Header)

theorem typeKeyword?_append {keyword : String} (h : keyword ∈ ["class", "interface", "enum"]) (cs : List Char) :
    typeKeyword? (keyword.toList ++ cs) = some cs := by
  simp only [List.mem_cons, List.not_mem_nil, or_false] at h
  rcases h with rfl | rfl | rfl <;> rfl

/-- The declared name ends where the clause starts. -/
theorem atWordEnd_clause : atWordEnd (header.clause Inside.bracketed ++ ['\x7b']) = true :=
  atWordEnd_append (atWordEnd_append header.behindName.atWordEnd <|
    atWordEnd_append (atWordEnd_argumentsText header.parameters) <|
    atWordEnd_append (Java.atWordEnd_clause "extends" header.extended) <|
    atWordEnd_append (Java.atWordEnd_clause "implements" header.implemented) header.behind.atWordEnd) rfl

/-- The clause ends at the brace. -/
theorem span_clause : (header.clause Inside.bracketed ++ ['\x7b']).span (fun c => c != '\x7b' && c != ';') =
    (header.clause Inside.bracketed, ['\x7b']) := by
  have hmarks : '\x7b' ∉ header.clause Inside.bracketed ∧ ';' ∉ header.clause Inside.bracketed :=
    ⟨header.notMem_clause rfl rfl (Inside.notMem_bracketed (by decide)) (by decide) (by decide),
      header.notMem_clause rfl rfl (Inside.notMem_bracketed (by decide)) (by decide) (by decide)⟩
  refine span_append (fun c hc => ?_) (by rintro _ ⟨⟩; decide)
  rw [Bool.and_eq_true, bne_iff_ne, bne_iff_ne]
  exact ⟨fun heq => hmarks.1 (heq ▸ hc), fun heq => hmarks.2 (heq ▸ hc)⟩

theorem header?_chars : header? none header.chars = some (header.clause Inside.bracketed, []) := by
  have hname : blanks (header.name.chars ++ (header.clause Inside.bracketed ++ ['\x7b'])) =
      header.name.chars ++ (header.clause Inside.bracketed ++ ['\x7b']) := by
    obtain ⟨c, others, hchars⟩ := List.exists_cons_of_ne_nil header.name.ne_nil
    have hc := header.name.isWord_of_mem c (by simp [hchars])
    rw [hchars, List.cons_append, blanks, List.dropWhile_cons_of_neg (by simp [isBlank_of_isWord hc])]
  have hread : ((typeKeyword? header.chars).bind someBlanks?).bind (run? isWord) =
      some (header.name.chars, header.clause Inside.bracketed ++ ['\x7b']) := by
    rw [Header.chars, typeKeyword?_append header.keyword_mem]
    simp only [Option.bind_some, someBlanks?_append header.beforeName.ne_nil
      header.beforeName.isBlank_of_mem, hname]
    exact run?_append header.name.ne_nil header.name.isWord_of_mem (atWordEnd_iff.1 header.atWordEnd_clause)
  have hstart : guard (atWordStart none) = (some () : Option Unit) := rfl
  simp only [header?, hread, hstart, Option.bind_eq_bind, Option.bind_some, header.span_clause]
  rfl

theorem findAll_chars : findAll header? header.chars = [(0, header.clause Inside.bracketed)] := by
  have hlt : ([] : List Char).length < header.chars.length := by
    simp only [Header.chars, List.length_append, List.length_nil, List.length_singleton]
    omega
  rw [findAll, findFrom_of_some header.header?_chars hlt, findFrom_nil]

/-- The types that are read of a list which a header has, or of none. -/
theorem getD_typeNames {list : Option (List Char)} {clause : Option Clause}
    (hnone : clause = none → list = none)
    (hsome : ∀ found, clause = some found → ∃ behind : Blanks,
      list = some (blanks (found.list unwritten ++ behind.chars))) :
    (list.map typeNames).getD [] = clause.elim [] Clause.names := by
  cases clause with
  | none =>
    rw [hnone rfl]
    rfl
  | some found =>
    obtain ⟨behind, rfl⟩ := hsome found rfl
    rw [Option.map_some, Option.getD_some, typeNames_blanks, found.typeNames_list, Option.elim_some]

/-- A header is read as the types that it lists. -/
theorem heritage_chars : heritage header.chars = header.listed := by
  have hextended := getD_typeNames header.extendsList?_of_none fun _ => header.extendsList?_of_some
  have himplemented := getD_typeNames header.implementsList?_of_none fun _ h =>
    ⟨header.behind, header.implementsList?_of_some h⟩
  rw [heritage, header.findAll_chars]
  simp only [List.flatMap_cons, List.flatMap_nil, List.append_nil, header.stripGenerics_clause, hextended,
    himplemented, listed]

/-- What a type parameter extends is not listed, and a point stands in the name of a type only. -/
example : heritage "class Box<T extends Item<T>> extends base . Shelf<T> implements Open, Map<K, V> \x7b".toList =
    [(.extends, "Shelf"), (.implements, "Open"), (.implements, "Map")] := by
  cbv

/-- A header gives one edge for each type that it lists and whose name is that of a class, those that it extends
first, and none for what stands in type parameters and arguments. -/
theorem heritageEdges_chars (sources : Sources) (path : String) :
    Extraction.heritageEdges sources path header.chars = header.listed.filterMap fun (heritage, name) =>
      (sources.javaClass? name).map fun target =>
        { source := path, target, kind := Extraction.heritageKind heritage } := by
  rw [Extraction.heritageEdges, heritage_chars]
  refine List.filterMap_congr fun named _ => ?_
  obtain ⟨heritage, name⟩ := named
  dsimp only
  rw [← Sources.javaClass?]
  cases hclass : sources.javaClass? name with
  | none => rfl
  | some target =>
    have hne := Sources.ne_empty_of_javaClass? hclass
    dsimp only
    rw [if_neg (by simpa using hne)]
    rfl

end Header

end CodeReview.Dependency.Java
