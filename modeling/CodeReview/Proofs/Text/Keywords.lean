import CodeReview.Proofs.Text.Scan

/-!
# Finding a word

* `isWord_of_isBlank`: white space is no part of a word.
* `wordsOf`: the words of a text, and `notMem_wordsOf_append_iff`: a text in two parts with white space in between
  has the words of both.
* `ReadsWord.findFirst?_append`, `ReadsWord.findFirst?_eq_none`: a search for a word passes over a text that
  has it nowhere.
-/

namespace CodeReview.Text

theorem isWord_of_isBlank {c : Char} (h : isBlank c = true) : isWord c = false := by
  have hall : ∀ n ∈ ([0x85, 0xA0, 0x1680, 0x2028, 0x2029, 0x202F, 0x205F, 0x3000] ++
      List.range' 0x2000 11), inRanges wordRanges n = false := by
    decide +kernel
  have hascii : ∀ n : Fin 128, isBlank (Char.ofNat n) = true → isWord (Char.ofNat n) = false := by
    decide
  by_cases hlow : c.toNat < 128
  · have hc := hascii ⟨c.toNat, hlow⟩
    rw [Char.ofNat_toNat] at hc
    exact hc h
  · rw [isWord, if_neg hlow]
    refine hall c.toNat ?_
    simp only [isBlank, if_neg hlow, Bool.or_eq_true, Bool.and_eq_true, beq_iff_eq, decide_eq_true_eq] at h
    simp only [List.mem_append, List.mem_cons, List.not_mem_nil, or_false, List.mem_range'_1]
    omega

theorem isBlank_of_isWord {c : Char} (h : isWord c = true) : isBlank c = false := by
  by_contra hblank
  rw [isWord_of_isBlank (by simpa using hblank)] at h
  exact nomatch h

end CodeReview.Text

namespace CodeReview.Scan

open Text

/-! ## The words of a text -/

section Words

variable {c : Char} {word front rest cs : List Char}

theorem atWordEnd_iff : atWordEnd cs = true ↔ ∀ c ∈ cs.head?, isWord c = false := by
  cases cs <;> simp [atWordEnd]

theorem atWordEnd_append (hfront : atWordEnd front = true) (hrest : atWordEnd rest = true) :
    atWordEnd (front ++ rest) = true := by
  cases front with
  | nil => exact hrest
  | cons c front => exact hfront

/-- The words of a text: what stands between the characters that are none of a word. -/
def wordsOf (cs : List Char) : List (List Char) := cs.splitOnP (!isWord ·)

theorem wordsOf_cons (h : isWord c = true) (cs : List Char) :
    wordsOf (c :: cs) = (wordsOf cs).modifyHead (c :: ·) := by
  rw [wordsOf, List.splitOnP_cons_eq_if_modifyHead, if_neg (by simp [h]), wordsOf]

theorem wordsOf_append (h : isWord c = false) (front rest : List Char) :
    wordsOf (front ++ c :: rest) = wordsOf front ++ wordsOf rest :=
  List.splitOnP_append_cons front rest (by simp [h])

theorem wordsOf_cons_of_not_word (h : isWord c = false) (cs : List Char) :
    wordsOf (c :: cs) = [] :: wordsOf cs :=
  wordsOf_append h [] cs

theorem wordsOf_of_word (h : ∀ c ∈ word, isWord c = true) : wordsOf word = [word] :=
  List.splitOnP_eq_singleton fun c hc => by simp [h c hc]

theorem notMem_wordsOf_append (hne : word ≠ []) (h : ∀ c ∈ front, isWord c = false) :
    word ∉ wordsOf (front ++ rest) ↔ word ∉ wordsOf rest := by
  induction front with
  | nil => rfl
  | cons c front ih =>
    rw [List.forall_mem_cons] at h
    rw [List.cons_append, wordsOf_cons_of_not_word h.1, List.mem_cons, or_iff_right hne, ih h.2]

theorem notMem_wordsOf (hne : word ≠ []) (h : ∀ c ∈ cs, isWord c = false) : word ∉ wordsOf cs := by
  rw [← List.append_nil cs, notMem_wordsOf_append hne h]
  simpa [wordsOf] using hne

/-- Two parts of a text with other characters in between have their words apart. -/
theorem notMem_wordsOf_append_iff {gap : List Char} (hne : word ≠ []) (hgap : gap ≠ [])
    (h : ∀ c ∈ gap, isWord c = false) :
    word ∉ wordsOf (front ++ (gap ++ rest)) ↔ word ∉ wordsOf front ∧ word ∉ wordsOf rest := by
  obtain ⟨c, gap, rfl⟩ := List.exists_cons_of_ne_nil hgap
  rw [List.forall_mem_cons] at h
  rw [List.cons_append, wordsOf_append h.1, List.mem_append, not_or, notMem_wordsOf_append hne h.2]

theorem notMem_wordsOf_append_right (hne : word ≠ []) (h : ∀ c ∈ rest, isWord c = false) :
    word ∉ wordsOf (front ++ rest) ↔ word ∉ wordsOf front := by
  by_cases hrest : rest = []
  · rw [hrest, List.append_nil]
  · rw [← List.append_nil rest, notMem_wordsOf_append_iff hne hrest h]
    exact and_iff_left (by simpa [wordsOf] using hne)

theorem notMem_wordsOf_join {parts : List (List Char)} (hne : word ≠ []) (hc : isWord c = false)
    (h : ∀ part ∈ parts, word ∉ wordsOf part) : word ∉ wordsOf (Chars.join [c] parts) := by
  induction parts with
  | nil => exact notMem_wordsOf hne (List.forall_mem_nil _)
  | cons part parts ih =>
    rw [List.forall_mem_cons] at h
    by_cases hparts : parts = []
    · subst hparts
      simpa [Chars.join] using h.1
    · rw [Chars.join_cons hparts, List.append_assoc,
        notMem_wordsOf_append_iff hne (List.cons_ne_nil c []) (by simpa using hc)]
      exact ⟨h.1, ih h.2⟩

/-- What is left of a text behind its first character has the same words, but perhaps the first. -/
theorem notMem_wordsOf_of_cons (h : word ∉ (wordsOf (c :: cs)).tail) :
    (atWordStart (some c) = true → word ∉ wordsOf cs) ∧ word ∉ (wordsOf cs).tail := by
  cases hc : isWord c with
  | true =>
    rw [wordsOf_cons hc, List.tail_modifyHead] at h
    exact ⟨fun hstart => by simp [atWordStart, hc] at hstart, h⟩
  | false =>
    rw [wordsOf_cons_of_not_word hc, List.tail_cons] at h
    exact ⟨fun _ => h, fun hmem => h (List.mem_of_mem_tail hmem)⟩

end Words

/-! ## Searches -/

section Searches

variable {α : Type} {recognise : Option Char → List Char → Option (α × List Char)} {before : Option Char}
  {c : Char} {word front rest cs : List Char}

/-- A recogniser that reads nothing but a word, where it stands by itself. -/
def ReadsWord (word : List Char) (recognise : Option Char → List Char → Option (α × List Char)) : Prop :=
  ∀ before cs, recognise before cs ≠ none →
    atWordStart before = true ∧ ∃ rest, cs = word ++ rest ∧ atWordEnd rest = true

variable (hreads : ReadsWord word recognise) (hne : word ≠ []) (hword : ∀ c ∈ word, isWord c = true)
include hreads hword

/-- Where a text has the word nowhere, it is not read, however the text goes on behind its last word. -/
theorem ReadsWord.eq_none (hfront : atWordStart before = true → word ∉ wordsOf front)
    (hrest : atWordEnd rest = true) : recognise before (front ++ rest) = none := by
  by_contra h
  obtain ⟨hstart, behind, heq, hend⟩ := hreads _ _ h
  refine hfront hstart ?_
  have hwhole : word ∈ wordsOf word := by
    rw [wordsOf_of_word hword]
    exact List.mem_singleton_self word
  rcases List.append_eq_append_iff.1 heq with ⟨inner, rfl, hinner⟩ | ⟨inner, rfl, hinner⟩
  · cases inner with
    | nil => simpa using hwhole
    | cons c inner =>
      rw [hinner] at hrest
      rw [atWordEnd, List.cons_append, List.head?_cons, Option.any_some, hword c (by simp)] at hrest
      exact nomatch hrest
  · cases inner with
    | nil => simpa using hwhole
    | cons c inner =>
      have hc : isWord c = false := by simpa [hinner, atWordEnd] using hend
      rw [wordsOf_append hc]
      exact List.mem_append_left _ hwhole

/-- A search goes on behind a text that has the word nowhere. If the text starts within a word, that word does not
count. -/
theorem ReadsWord.exists_go_append (hfront : atWordStart before = true → word ∉ wordsOf front)
    (htail : word ∉ (wordsOf front).tail) (hrest : atWordEnd rest = true) (seen : List Char) :
    ∃ last, findFirst?.go recognise seen before (front ++ rest) =
      findFirst?.go recognise (front.reverse ++ seen) last rest := by
  induction front generalizing seen before with
  | nil => exact ⟨before, rfl⟩
  | cons c front ih =>
    have hnone := hreads.eq_none hword hfront hrest
    have hgo : findFirst?.go recognise seen before (c :: front ++ rest) =
        findFirst?.go recognise (c :: seen) (some c) (front ++ rest) := by
      rw [findFirst?.go.eq_def, hnone]
      rfl
    have hnext := notMem_wordsOf_of_cons htail
    obtain ⟨last, hlast⟩ := ih hnext.1 hnext.2 (c :: seen)
    exact ⟨last, by rw [hgo, hlast, List.reverse_cons, List.append_assoc, List.singleton_append]⟩

include hne

theorem ReadsWord.eq_none_of_end (h : atWordEnd rest = true) : recognise before rest = none := by
  have hnil : word ∉ wordsOf [] := by simpa [wordsOf] using hne
  have hnone : recognise before ([] ++ rest) = none := hreads.eq_none hword (fun _ => hnil) h
  exact hnone

theorem ReadsWord.go_append (hfront : atWordStart before = true → word ∉ wordsOf front)
    (htail : word ∉ (wordsOf front).tail) (hc : isWord c = false) {a : α}
    (hfound : recognise (some c) cs = some (a, rest)) (seen : List Char) :
    findFirst?.go recognise seen before (front ++ c :: cs) = some (seen.reverse ++ front ++ [c], a, rest) := by
  have hend : atWordEnd (c :: cs) = true := by simp [atWordEnd, hc]
  obtain ⟨last, hgo⟩ := hreads.exists_go_append hword hfront htail hend seen
  rw [hgo, findFirst?.go.eq_def, hreads.eq_none_of_end hne hword hend]
  dsimp only
  rw [findFirst?.go.eq_def, hfound]
  simp

theorem ReadsWord.go_eq_none (hfront : atWordStart before = true → word ∉ wordsOf front)
    (htail : word ∉ (wordsOf front).tail) (seen : List Char) :
    findFirst?.go recognise seen before front = none := by
  have hend : atWordEnd [] = true := rfl
  obtain ⟨last, hgo⟩ := hreads.exists_go_append hword hfront htail hend seen
  rw [List.append_nil] at hgo
  rw [hgo, findFirst?.go.eq_def, hreads.eq_none_of_end hne hword hend]

/-- The first find of a word, behind a text that has it nowhere. -/
theorem ReadsWord.findFirst?_append (hfront : word ∉ wordsOf front) (hc : isWord c = false) {a : α}
    (hfound : recognise (some c) cs = some (a, rest)) :
    findFirst? recognise (front ++ c :: cs) = some (front ++ [c], a, rest) :=
  hreads.go_append hne hword (fun _ => hfront) (fun hmem => hfront (List.mem_of_mem_tail hmem)) hc hfound []

theorem ReadsWord.findFirst?_eq_none (h : word ∉ wordsOf cs) : findFirst? recognise cs = none :=
  hreads.go_eq_none hne hword (fun _ => h) (fun hmem => h (List.mem_of_mem_tail hmem)) []

end Searches

end CodeReview.Scan
