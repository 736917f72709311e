import CodeReview.Proofs.Text.Chars
import Mathlib.Data.List.Basic

/-!
# Words

* `notBlank_of_mem_words`: a word is not empty, and no character of it is white space.
* `words_append`: a word that white space ends is the first of the words.
* `eq_space_of_squeeze`: a text that is squeezed has no white space but spaces, and
  `trim_of_squeeze`: none at its ends.
-/

namespace CodeReview.Chars

open Text

variable {c : Char} {cs word before : List Char}

theorem words_cons_of_isBlank (h : isBlank c = true) (cs : List Char) :
    words (c :: cs) = words cs := by
  simp [words, h]

theorem squeeze_cons_of_isBlank (h : isBlank c = true) (cs : List Char) :
    squeeze (c :: cs) = squeeze cs := by
  rw [squeeze, words_cons_of_isBlank h, squeeze]

theorem words_append_of_isBlank (h : ∀ c ∈ before, isBlank c = true) (cs : List Char) :
    words (before ++ cs) = words cs := by
  induction before with
  | nil => rfl
  | cons c before ih =>
    rw [List.forall_mem_cons] at h
    rw [List.cons_append, words_cons_of_isBlank h.1, ih h.2]

/-- A word that white space ends is the first of the words. -/
theorem words_append (hne : word ≠ []) (h : ∀ c ∈ word, isBlank c = false)
    (hcs : ∀ c ∈ cs.head?, isBlank c = true) : words (word ++ cs) = word :: words cs := by
  obtain ⟨parts, hparts⟩ : ∃ parts, cs.foldr (fun c parts =>
      if isBlank c = true then [] :: parts else joinFirst c parts) [[]] = [] :: parts := by
    cases cs with
    | nil => exact ⟨[], rfl⟩
    | cons c cs => exact ⟨_, by rw [List.foldr_cons, if_pos (hcs c rfl)]⟩
  have hword : (word ++ cs).foldr (fun c parts =>
      if isBlank c = true then [] :: parts else joinFirst c parts) [[]] = word :: parts := by
    rw [List.foldr_append, hparts]
    clear hne
    induction word with
    | nil => rfl
    | cons c word ih =>
      rw [List.forall_mem_cons] at h
      rw [List.foldr_cons, ih h.2, if_neg (by simp [h.1])]
      rfl
  rw [words, words, hword, hparts, List.filter_cons_of_pos (by simpa using hne),
    List.filter_cons_of_neg (by simp)]

theorem words_eq_nil (h : ∀ c ∈ cs, isBlank c = true) : words cs = [] := by
  rw [← List.append_nil cs, words_append_of_isBlank h]
  rfl

theorem notBlank_of_mem_words (h : word ∈ words cs) : word ≠ [] ∧ ∀ c ∈ word, isBlank c = false := by
  obtain ⟨hmem, hne⟩ := List.mem_filter.1 h
  refine ⟨by simpa using hne, ?_⟩
  clear h hne
  induction cs generalizing word with
  | nil => simp [List.mem_singleton.1 hmem]
  | cons d cs ih =>
    rw [List.foldr_cons] at hmem
    split at hmem
    · obtain rfl | hmem := List.mem_cons.1 hmem
      · exact nofun
      · exact ih hmem
    · next hd =>
      obtain ⟨first, parts, hparts⟩ : ∃ first parts, cs.foldr (fun c parts =>
          if isBlank c = true then [] :: parts else joinFirst c parts) [[]] = first :: parts := by
        apply List.exists_cons_of_ne_nil
        cases cs with
        | nil => simp
        | cons e cs =>
          rw [List.foldr_cons]
          split
          · simp
          · exact joinFirst_ne_nil e _
      rw [hparts] at hmem ih
      obtain rfl | hmem := List.mem_cons.1 hmem
      · simpa [hd] using ih List.mem_cons_self
      · exact ih (List.mem_cons_of_mem first hmem)

theorem isBlank_of_isLineEnd (h : isLineEnd c = true) : isBlank c = true := by
  simp only [isLineEnd, Bool.or_eq_true, Bool.and_eq_true, decide_eq_true_eq, beq_iff_eq] at h
  unfold isBlank
  dsimp only
  split
  · simp only [Bool.or_eq_true, Bool.and_eq_true, decide_eq_true_eq]
    omega
  · simp only [Bool.or_eq_true, Bool.and_eq_true, decide_eq_true_eq, beq_iff_eq]
    omega

theorem eq_space_of_squeeze (h : squeeze cs = cs) (hc : c ∈ cs) (hblank : isBlank c = true) : c = ' ' := by
  by_contra hne
  rw [← h, squeeze, mem_join_iff hne] at hc
  obtain ⟨word, hword, hc⟩ := hc
  rw [(notBlank_of_mem_words hword).2 c hc] at hblank
  exact nomatch hblank

/-- What stands at the ends of joined words stands in a word. -/
theorem exists_word_of_ends {words : List (List Char)} (h : ∀ word ∈ words, word ≠ []) :
    (words ≠ [] → join [' '] words ≠ []) ∧ ∀ c, (join [' '] words).head? = some c ∨
      (join [' '] words).getLast? = some c → ∃ word ∈ words, c ∈ word := by
  induction words with
  | nil => exact ⟨fun hne => absurd rfl hne, by simp [join]⟩
  | cons word words ih =>
    rw [List.forall_mem_cons] at h
    obtain ⟨hne, hrest⟩ := ih h.2
    by_cases hwords : words = []
    · subst hwords
      have hjoin : join [' '] [word] = word := by simp [join]
      rw [hjoin]
      exact ⟨fun _ => h.1, fun c hc => ⟨word, by simp, hc.elim List.mem_of_mem_head? List.mem_of_getLast?⟩⟩
    · rw [join_cons hwords]
      refine ⟨fun _ => by simp, fun c hc => ?_⟩
      obtain hc | hc := hc
      · obtain ⟨first, rest, hword⟩ := List.exists_cons_of_ne_nil h.1
        refine ⟨word, List.mem_cons_self, ?_⟩
        rw [hword, List.cons_append, List.cons_append, List.head?_cons] at hc
        exact hword ▸ Option.some.inj hc ▸ List.mem_cons_self
      · rw [List.getLast?_append_of_ne_nil _ (hne hwords)] at hc
        obtain ⟨other, hother, hc⟩ := hrest c (.inr hc)
        exact ⟨other, List.mem_cons_of_mem word hother, hc⟩

/-- A squeezed text has no white space at its ends. -/
theorem trim_of_squeeze (h : squeeze cs = cs) : trim cs = cs := by
  refine trimBoth_eq_self_iff.2 fun c hc => ?_
  rw [← h] at hc
  obtain ⟨word, hword, hc⟩ :=
    (exists_word_of_ends fun word hword => (notBlank_of_mem_words hword).1).2 c hc
  exact (notBlank_of_mem_words hword).2 c hc

end CodeReview.Chars
