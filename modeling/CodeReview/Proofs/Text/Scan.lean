import CodeReview.Text.Scan
import Mathlib.Data.List.Nodup
import Mathlib.Data.List.TakeDrop
import Mathlib.Data.List.TakeWhile

/-!
# Recognisers and finds

* `span_append`, `run?_append`: a run that ends where the text goes on with something else.
* `wordAndBlanks?_of_suffix`: where a word and white space behind it can stand in a text.
* `findFrom_of_none`, `findFrom_of_some`: one step of finding, and `forall_mem_findFrom`: what is found is what
  the recogniser reads somewhere.
* `names_eq_singleton_iff`: one name is left where all finds have it, but for the empty ones.
-/

namespace CodeReview.Scan

open Text

/-! ## Small recognisers -/

section Recognisers

variable {p : Char → Bool} {c : Char} {word rest cs : List Char}

theorem span_append (h : ∀ c ∈ word, p c = true) (hrest : ∀ c ∈ rest.head?, p c = false) :
    (word ++ rest).span p = (word, rest) := by
  have htake : rest.takeWhile p = [] ∧ rest.dropWhile p = rest := by
    cases rest with
    | nil => exact ⟨rfl, rfl⟩
    | cons c rest => simp [hrest c rfl]
  rw [List.span_eq_takeWhile_dropWhile, List.takeWhile_append_of_pos h, List.dropWhile_append_of_pos h,
    htake.1, htake.2, List.append_nil]

theorem run?_append (hne : word ≠ []) (h : ∀ c ∈ word, p c = true)
    (hrest : ∀ c ∈ rest.head?, p c = false) : run? p (word ++ rest) = some (word, rest) := by
  obtain ⟨d, ds, rfl⟩ := List.exists_cons_of_ne_nil hne
  rw [run?, span_append h hrest]

theorem run?_eq_none (h : ∀ c ∈ cs.head?, p c = false) : run? p cs = none := by
  have hspan : cs.span p = ([], cs) := span_append (List.forall_mem_nil _) h
  rw [run?, hspan]

theorem eq_of_run? (h : run? p cs = some (word, rest)) :
    word ≠ [] ∧ (∀ c ∈ word, p c = true) ∧ cs = word ++ rest := by
  rw [run?] at h
  split at h
  · exact nomatch h
  · next hne =>
    have hspan := Option.some.inj h
    have hword : word ≠ [] := fun hnil => hne rest (hnil ▸ hspan)
    rw [List.span_eq_takeWhile_dropWhile] at hspan
    obtain ⟨rfl, rfl⟩ := Prod.mk.inj hspan
    exact ⟨hword, fun c hc => List.mem_takeWhile_imp hc, List.takeWhile_append_dropWhile.symm⟩

theorem char?_eq_none (h : c ∉ cs) : char? c cs = none := by
  cases cs with
  | nil => rfl
  | cons d cs =>
    have hne : (c == d) = false := by
      rw [beq_eq_false_iff_ne]
      rintro rfl
      exact h List.mem_cons_self
    rw [char?, hne]
    rfl

theorem word?_append (word : String) (rest : List Char) : word? word (word.toList ++ rest) = some rest :=
  Chars.dropPrefix?_eq_some_iff.2 rfl

theorem blanks_append (h : ∀ c ∈ word, isBlank c = true) (rest : List Char) :
    blanks (word ++ rest) = blanks rest :=
  List.dropWhile_append_of_pos h

theorem blanks_of_head? (h : ∀ c ∈ cs.head?, isBlank c = false) : blanks cs = cs := by
  cases cs with
  | nil => rfl
  | cons c cs => rw [blanks, List.dropWhile_cons, if_neg (by simp [h c rfl])]

theorem someBlanks?_append (hne : word ≠ []) (h : ∀ c ∈ word, isBlank c = true) (rest : List Char) :
    someBlanks? (word ++ rest) = some (blanks rest) := by
  obtain ⟨c, cs, rfl⟩ := List.exists_cons_of_ne_nil hne
  rw [List.forall_mem_cons] at h
  rw [List.cons_append, someBlanks?, if_pos h.1, blanks_append h.2]

theorem word?_eq_none {word : String} (hc : c ∈ word.toList) (h : c ∉ cs) : word? word cs = none := by
  cases hrest : word? word cs with
  | none => rfl
  | some rest =>
    rw [Chars.dropPrefix?_eq_some_iff.1 hrest] at h
    exact absurd (List.mem_append_left rest hc) h

/-- A word that the text opens with, and that has no part of what comes behind, stands in front of it. -/
theorem prefix_of_word?_ne_none {word : String} (hc : c ∉ word.toList)
    (h : word? word (cs ++ c :: rest) ≠ none) : word.toList <+: cs := by
  obtain ⟨behind, hbehind⟩ := Option.ne_none_iff_exists'.1 h
  have heq := Chars.dropPrefix?_eq_some_iff.1 hbehind
  rcases List.append_eq_append_iff.1 heq with ⟨more, hword, hmore⟩ | ⟨more, hcs, -⟩
  · cases more with
    | nil => exact ⟨[], by simp [hword]⟩
    | cons d more =>
      obtain ⟨rfl, -⟩ := List.cons.inj hmore
      simp [hword] at hc
  · exact ⟨more, hcs.symm⟩

theorem wordAndBlanks?_eq_some_iff {word : String} : wordAndBlanks? word cs = some rest ↔
    ∃ c behind, isBlank c = true ∧ cs = word.toList ++ c :: behind ∧ rest = blanks behind := by
  rw [wordAndBlanks?, Option.bind_eq_bind, Option.bind_eq_some_iff]
  constructor
  · rintro ⟨behind, hword, hrest⟩
    cases behind with
    | nil => cases hrest
    | cons c behind =>
      rw [someBlanks?] at hrest
      split at hrest
      · next hblank =>
        cases hrest
        exact ⟨c, behind, hblank, Chars.dropPrefix?_eq_some_iff.1 hword, rfl⟩
      · cases hrest
  · rintro ⟨c, behind, hblank, rfl, rfl⟩
    exact ⟨c :: behind, word?_append word _, if_pos hblank⟩

theorem wordAndBlanks?_eq_none (word : String) (h : ∀ c ∈ cs, isBlank c = false) :
    wordAndBlanks? word cs = none := by
  by_contra hne
  obtain ⟨rest, hrest⟩ := Option.ne_none_iff_exists'.1 hne
  obtain ⟨c, behind, hblank, rfl, -⟩ := wordAndBlanks?_eq_some_iff.1 hrest
  rw [h c (by simp)] at hblank
  exact nomatch hblank

/-- A word without white space ends in front of the first white space. -/
theorem eq_of_wordAndBlanks? {word : String} {front behind : List Char}
    (hword : ∀ c ∈ word.toList, isBlank c = false) (hfront : ∀ c ∈ front, isBlank c = false)
    (hc : isBlank c = true) (h : wordAndBlanks? word (front ++ c :: behind) = some rest) :
    word.toList = front ∧ rest = blanks behind := by
  obtain ⟨d, more, hd, heq, rfl⟩ := wordAndBlanks?_eq_some_iff.1 h
  have hspan : (front ++ c :: behind).span (!isBlank ·) = (front, c :: behind) := by
    apply span_append
    · simpa using hfront
    · simp [hc]
  have hspan' : (word.toList ++ d :: more).span (!isBlank ·) = (word.toList, d :: more) := by
    apply span_append
    · simpa using hword
    · simp [hd]
  rw [heq, hspan'] at hspan
  obtain ⟨hfronts, hrests⟩ := Prod.mk.inj hspan
  exact ⟨hfronts, congrArg blanks (List.cons.inj hrests).2⟩

theorem wordAndBlanks?_of_suffix {word : String} {front behind : List Char}
    (hword : ∀ c ∈ word.toList, isBlank c = false) (hfront : ∀ c ∈ front, isBlank c = false)
    (hc : isBlank c = true) (hsuffix : cs <:+ front ++ c :: behind) (h : wordAndBlanks? word cs = some rest) :
    word.toList <:+ front ∧ rest = blanks behind ∨ cs <:+ behind := by
  induction front with
  | nil =>
    rcases List.suffix_cons_iff.1 hsuffix with rfl | hbehind
    · obtain ⟨heq, hrest⟩ := eq_of_wordAndBlanks? hword hfront hc h
      exact .inl ⟨heq ▸ List.suffix_rfl, hrest⟩
    · exact .inr hbehind
  | cons d front ih =>
    rcases List.suffix_cons_iff.1 hsuffix with rfl | hlater
    · obtain ⟨heq, hrest⟩ := eq_of_wordAndBlanks? hword hfront hc h
      exact .inl ⟨heq ▸ List.suffix_rfl, hrest⟩
    · rw [List.forall_mem_cons] at hfront
      refine (ih hfront.2 hlater).imp_left ?_
      rintro ⟨hend, hrest⟩
      exact ⟨hend.trans (List.suffix_cons d front), hrest⟩

theorem restOfLine_append (h : '\n' ∉ word) (hrest : ∀ c ∈ rest.head?, c = '\n') :
    restOfLine (word ++ rest) = (word, rest) :=
  span_append (fun _ hc => bne_iff_ne.2 fun heq => h (heq ▸ hc)) fun c hc => by simp [hrest c hc]

end Recognisers

/-- A recogniser that looks at something first reads nothing where that fails. -/
theorem of_guard_ne_none {p : Bool} {β : Type} {next : Unit → Option β}
    (h : (guard (p = true) >>= next) ≠ none) : p = true := by
  cases p with
  | true => rfl
  | false => exact absurd rfl h

/-! ## Finding -/

section Finding

variable {α : Type} {recognise : Option Char → List Char → Option (α × List Char)} {before : Option Char}
  {position : Nat} {a : α} {rest cs : List Char}

theorem findFrom_nil (recognise : Option Char → List Char → Option (α × List Char))
    (before : Option Char) (position : Nat) : findFrom recognise before position [] = [] := by
  rw [findFrom]
  split
  · rw [if_neg (by simp)]
  · rfl

theorem findFrom_of_none {c : Char} (h : recognise before (c :: cs) = none) :
    findFrom recognise before position (c :: cs) = findFrom recognise (some c) (position + 1) cs := by
  rw [findFrom.eq_def, h]

theorem findFrom_of_some (h : recognise before cs = some (a, rest)) (hlt : rest.length < cs.length) :
    findFrom recognise before position cs = (position, a) ::
      findFrom recognise (cs[cs.length - rest.length - 1]?) (position + (cs.length - rest.length)) rest := by
  rw [findFrom.eq_def, h]
  exact if_pos hlt

/-- What is found is what the recogniser reads somewhere. -/
theorem forall_mem_findFrom {P : α → Prop} (h : ∀ before suffix a rest, suffix <:+ cs →
    recognise before suffix = some (a, rest) → P a ∧ rest <:+ suffix) :
    ∀ find ∈ findFrom recognise before position cs, P find.2 := by
  fun_induction findFrom recognise before position cs with
  | case1 before position cs a rest hread hlt length ih =>
    have hfirst := h before cs a rest List.suffix_rfl hread
    rw [List.forall_mem_cons]
    exact ⟨hfirst.1, ih fun before suffix a rest hsuffix => h before suffix a rest (hsuffix.trans hfirst.2)⟩
  | case2 => exact List.forall_mem_nil _
  | case3 before position a rest c cs hread hlt ih =>
    exact ih fun before suffix a rest hsuffix => h before suffix a rest (hsuffix.trans (List.suffix_cons c cs))
  | case4 => exact List.forall_mem_nil _
  | case5 before position c cs hread ih =>
    exact ih fun before suffix a rest hsuffix => h before suffix a rest (hsuffix.trans (List.suffix_cons c cs))

/-- Where the recogniser reads nothing, nothing is found. -/
theorem findFrom_eq_nil_of_suffix (h : ∀ before suffix, suffix <:+ cs → recognise before suffix = none) :
    findFrom recognise before position cs = [] := by
  rw [List.eq_nil_iff_forall_not_mem]
  refine forall_mem_findFrom (P := fun _ => False) fun before suffix a rest hsuffix hread => ?_
  rw [h before suffix hsuffix] at hread
  exact nomatch hread

theorem findFrom_eq_nil_of_notMem {c : Char} (h : ∀ before cs, c ∉ cs → recognise before cs = none)
    (hc : c ∉ cs) : findFrom recognise before position cs = [] :=
  findFrom_eq_nil_of_suffix fun before _ hsuffix => h before _ fun hmem => hc (hsuffix.subset hmem)

/-- The first find is what the recogniser reads somewhere. -/
theorem exists_of_findFirst? {front : List Char} (h : findFirst? recognise cs = some (front, a, rest)) :
    ∃ before here, recognise before here = some (a, rest) := by
  have hgo (cs seen : List Char) (before : Option Char)
      (h : findFirst?.go recognise seen before cs = some (front, a, rest)) :
      ∃ before here, recognise before here = some (a, rest) := by
    induction cs generalizing seen before with
    | nil =>
      rw [findFirst?.go] at h
      split at h
      · next found =>
        obtain ⟨-, hfound⟩ := Prod.mk.inj (Option.some.inj h)
        obtain ⟨rfl, rfl⟩ := Prod.mk.inj hfound
        exact ⟨_, _, found⟩
      · exact nomatch h
    | cons c cs ih =>
      rw [findFirst?.go] at h
      split at h
      · next found =>
        obtain ⟨-, hfound⟩ := Prod.mk.inj (Option.some.inj h)
        obtain ⟨rfl, rfl⟩ := Prod.mk.inj hfound
        exact ⟨_, _, found⟩
      · exact ih _ _ h
  exact hgo cs [] none h

end Finding

/-! ## Names -/

section Names

variable {texts : List String} {t : String} {finds : List (Find (List Char))}

/-- Texts that come new are kept, and none twice. -/
theorem unique_invariant {seen : List String} (hseen : seen.Nodup) (texts : List String) :
    (texts.foldl (fun seen t => if t.isEmpty || seen.contains t then seen else t :: seen) seen).Nodup ∧
      ∀ t, t ∈ texts.foldl (fun seen t => if t.isEmpty || seen.contains t then seen else t :: seen) seen ↔
        t ∈ seen ∨ t ≠ "" ∧ t ∈ texts := by
  induction texts generalizing seen with
  | nil => exact ⟨hseen, by simp⟩
  | cons text texts ih =>
    rw [List.foldl_cons]
    split
    · next hknown =>
      simp only [Bool.or_eq_true, String.isEmpty_iff, List.contains_iff_mem] at hknown
      refine ⟨(ih hseen).1, fun t => ?_⟩
      rw [(ih hseen).2, List.mem_cons]
      grind
    · next hnew =>
      simp only [Bool.or_eq_true, String.isEmpty_iff, List.contains_iff_mem, not_or] at hnew
      have hcons := ih (List.nodup_cons.2 ⟨hnew.2, hseen⟩)
      refine ⟨hcons.1, fun t => ?_⟩
      rw [hcons.2, List.mem_cons, List.mem_cons]
      grind

theorem nodup_unique (texts : List String) : (unique texts).Nodup :=
  List.nodup_reverse.2 (unique_invariant List.nodup_nil texts).1

theorem mem_unique : t ∈ unique texts ↔ t ≠ "" ∧ t ∈ texts := by
  rw [unique, List.mem_reverse, (unique_invariant List.nodup_nil texts).2]
  simp

theorem mem_names : t ∈ names finds ↔ t ≠ "" ∧ ∃ find ∈ finds, String.ofList find.2 = t := by
  rw [names, mem_unique, List.mem_map, sorted]
  simp only [List.mem_mergeSort]

/-- One name is left where all finds have it, but for the empty ones. -/
theorem names_eq_singleton_iff (ht : t ≠ "") : names finds = [t] ↔
    (∃ find ∈ finds, String.ofList find.2 = t) ∧
      ∀ find ∈ finds, String.ofList find.2 = "" ∨ String.ofList find.2 = t := by
  constructor
  · intro heq
    have hmem (s : String) : s ≠ "" ∧ (∃ find ∈ finds, String.ofList find.2 = s) ↔ s = t := by
      rw [← mem_names, heq, List.mem_singleton]
    refine ⟨((hmem t).2 rfl).2, fun find hfind => ?_⟩
    by_cases hempty : String.ofList find.2 = ""
    · exact .inl hempty
    · exact .inr ((hmem _).1 ⟨hempty, find, hfind, rfl⟩)
  · rintro ⟨hfound, hall⟩
    have hnodup : (names finds).Nodup := nodup_unique _
    refine List.perm_singleton.1 ((List.perm_ext_iff_of_nodup hnodup (List.nodup_singleton t)).2 fun s => ?_)
    rw [mem_names, List.mem_singleton]
    constructor
    · rintro ⟨hne, find, hfind, rfl⟩
      exact (hall find hfind).resolve_left hne
    · rintro rfl
      exact ⟨ht, hfound⟩

end Names

end CodeReview.Scan
