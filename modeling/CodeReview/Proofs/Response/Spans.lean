import CodeReview.Proofs.Json.Shape
import CodeReview.Proofs.Sorting
import CodeReview.Proofs.Text.Chars
import CodeReview.Response.Braces

/-!
# Spans between braces

* A scan for the closing brace passes over balanced text (`afterClosingFrom?_balanced`), so it closes
  the brace of an object that is read as JSON where the reader does (`afterClosing?_object`).
* `Span text`: a place in `text` from an opening brace to the one that closes it.
* `Span.Kept`: no span that is kept itself starts before it and reaches over its start. Those are the
  spans that a scan from left to right finds (`mem_spans_iff`).
* `spans_trim`: white space around a text changes none of its spans.
-/

namespace CodeReview.Response.Braces

open Json Text

/-! ## The closing brace -/

section Closing

variable {mode : Mode} {depth : Nat} {cs rest : List Char}

theorem afterClosingFrom?_inString (h : InString cs rest) :
    afterClosingFrom? .quoted depth cs = afterClosingFrom? .quoted depth rest := by
  induction h with
  | refl => rfl
  | plain hquote hback _ _ ih =>
    rw [afterClosingFrom?, if_neg (by simpa using hback), if_neg (by simpa using hquote), ih]
  | escape _ _ ih => rw [afterClosingFrom?, if_pos (by rfl), afterClosingFrom?, ih]

/-- Inside a pair of braces a scan passes over balanced text and is as deep behind it as before. -/
theorem afterClosingFrom?_balanced (h : Balanced cs rest) :
    afterClosingFrom? .plain (depth + 1) cs = afterClosingFrom? .plain (depth + 1) rest := by
  induction h generalizing depth with
  | refl => rfl
  | neutral hc _ ih =>
    obtain ⟨hquote, hopen, hclose, -⟩ := hc
    rw [afterClosingFrom?, if_neg (by simpa using hquote), if_neg (by simpa using hopen),
      if_neg (by simpa using hclose), ih]
  | string hin _ ih =>
    rw [afterClosingFrom?, if_pos (by rfl), afterClosingFrom?_inString hin, afterClosingFrom?,
      if_neg (by decide), if_pos (by rfl), ih]
  | braces _ _ ihin ih =>
    rw [afterClosingFrom?, if_neg (by decide), if_pos (by rfl), ihin, afterClosingFrom?,
      if_neg (by decide), if_neg (by decide), if_pos (by rfl), if_neg (by omega),
      Nat.add_sub_cancel, ih]

theorem afterClosing?_balanced (h : Balanced cs ('\x7d' :: rest)) :
    afterClosing? ('\x7b' :: cs) = some rest := by
  rw [afterClosing?, afterClosingFrom?, if_neg (by decide), if_pos (by rfl),
    afterClosingFrom?_balanced h]
  simp [afterClosingFrom?]

/-- A text between braces that reads as JSON is closed by its last brace, whatever follows. -/
theorem afterClosing?_object {v : Json} (h : parseChars? cs = some v)
    (hopen : cs.head? = some '\x7b') (hclose : cs.getLast? = some '\x7d') (after : List Char) :
    afterClosing? (cs ++ after) = some after := by
  obtain ⟨inner, rfl, hinner⟩ := balanced_of_parseChars?_braces h hopen hclose
  exact afterClosing?_balanced (hinner.append after)

/-- A scan that ends does so right behind a closing brace. -/
theorem eq_append_of_afterClosingFrom? (h : afterClosingFrom? mode depth cs = some rest) :
    ∃ used, cs = used ++ '\x7d' :: rest := by
  fun_induction afterClosingFrom? mode depth cs with
  | case1 => exact nomatch h
  | case8 _ c cs _ _ hclose =>
    exact ⟨[], by rw [beq_iff_eq.1 hclose, Option.some.inj h, List.nil_append]⟩
  | case2 _ c cs ih | case3 _ c cs _ ih | case4 _ c cs _ _ ih | case5 _ c cs _ _ ih
  | case6 _ c cs _ ih | case7 _ c cs _ _ ih | case9 _ c cs _ _ _ _ ih | case10 _ c cs _ _ _ ih =>
    obtain ⟨used, rfl⟩ := ih h
    exact ⟨c :: used, rfl⟩

theorem afterClosingFrom?_eq_none (h : '\x7d' ∉ cs) : afterClosingFrom? mode depth cs = none := by
  cases hfound : afterClosingFrom? mode depth cs with
  | none => rfl
  | some rest =>
    obtain ⟨used, rfl⟩ := eq_append_of_afterClosingFrom? hfound
    exact absurd (by simp) h

/-- Text without a closing brace behind a text changes what a scan leaves, and nothing else. -/
theorem afterClosingFrom?_append {after : List Char} (h : '\x7d' ∉ after) :
    afterClosingFrom? mode depth (cs ++ after) =
      (afterClosingFrom? mode depth cs).map (· ++ after) := by
  fun_induction afterClosingFrom? mode depth cs with
  | case1 => exact afterClosingFrom?_eq_none h
  | case2 _ _ _ ih => rw [List.cons_append, afterClosingFrom?, ih]
  | case3 _ _ _ hback ih => rw [List.cons_append, afterClosingFrom?, if_pos hback, ih]
  | case4 _ _ _ hback hquote ih =>
    rw [List.cons_append, afterClosingFrom?, if_neg hback, if_pos hquote, ih]
  | case5 _ _ _ hback hquote ih =>
    rw [List.cons_append, afterClosingFrom?, if_neg hback, if_neg hquote, ih]
  | case6 _ _ _ hquote ih => rw [List.cons_append, afterClosingFrom?, if_pos hquote, ih]
  | case7 _ _ _ hquote hopen ih =>
    rw [List.cons_append, afterClosingFrom?, if_neg hquote, if_pos hopen, ih]
  | case8 _ _ _ hquote hopen hclose hdepth =>
    rw [List.cons_append, afterClosingFrom?, if_neg hquote, if_neg hopen, if_pos hclose,
      if_pos hdepth, Option.map_some]
  | case9 _ _ _ hquote hopen hclose hdepth ih =>
    rw [List.cons_append, afterClosingFrom?, if_neg hquote, if_neg hopen, if_pos hclose,
      if_neg hdepth, ih]
  | case10 _ _ _ hquote hopen hclose ih =>
    rw [List.cons_append, afterClosingFrom?, if_neg hquote, if_neg hopen, if_neg hclose, ih]

end Closing

/-! ## The spans of a text -/

section Spans

variable {cs rest : List Char}

@[simp]
theorem spans_nil : spans [] = [] := by rw [spans]

theorem spans_cons_of_ne {c : Char} (h : c ≠ '\x7b') : spans (c :: cs) = spans cs := by
  rw [spans, if_neg (by simpa using h)]

theorem spans_cons_of_none (h : afterClosing? ('\x7b' :: cs) = none) :
    spans ('\x7b' :: cs) = spans cs := by
  rw [spans, if_pos (by rfl)]
  split
  · next heq => rw [h] at heq; cases heq
  · rfl

theorem spans_cons_of_some (h : afterClosing? ('\x7b' :: cs) = some rest) :
    spans ('\x7b' :: cs) = ('\x7b' :: cs).take (cs.length + 1 - rest.length) :: spans rest := by
  rw [spans, if_pos (by rfl)]
  split
  · next heq => rw [h] at heq; rw [Option.some.inj heq]
  · next heq => rw [h] at heq; cases heq

/-- Text without an opening brace in front has no spans. -/
theorem spans_append_left {before : List Char} (h : '\x7b' ∉ before) :
    spans (before ++ cs) = spans cs := by
  induction before with
  | nil => rfl
  | cons c before ih =>
    rw [List.mem_cons, not_or] at h
    rw [List.cons_append, spans_cons_of_ne (Ne.symm h.1), ih h.2]

theorem spans_eq_nil (h : '\x7b' ∉ cs) : spans cs = [] := by
  have hspans := @spans_append_left [] cs h
  rwa [List.append_nil, spans_nil] at hspans

/-- Text without braces behind has no part in any span. -/
theorem spans_append_right {after : List Char} (hopen : '\x7b' ∉ after) (hclose : '\x7d' ∉ after) :
    spans (cs ++ after) = spans cs := by
  fun_induction spans cs with
  | case1 => exact spans_eq_nil hopen
  | case2 c cs hc rest hrest ih =>
    obtain rfl := beq_iff_eq.1 hc
    have happend : afterClosing? ('\x7b' :: (cs ++ after)) = some (rest ++ after) := by
      rw [← List.cons_append, afterClosing?, afterClosingFrom?_append hclose, ← afterClosing?,
        hrest, Option.map_some]
    have hlength := length_of_afterClosingFrom? hrest
    rw [List.cons_append, spans_cons_of_some happend, ih, ← List.cons_append,
      List.take_append_of_le_length, List.length_append, List.length_append]
    · congr 2
      omega
    · simp only [List.length_append, List.length_cons]
      omega
  | case3 c cs hc hnone ih =>
    obtain rfl := beq_iff_eq.1 hc
    have happend : afterClosing? ('\x7b' :: (cs ++ after)) = none := by
      rw [← List.cons_append, afterClosing?, afterClosingFrom?_append hclose, ← afterClosing?,
        hnone, Option.map_none]
    rw [List.cons_append, spans_cons_of_none happend, ih]
  | case4 c cs hc ih => rw [List.cons_append, spans_cons_of_ne (by simpa using hc), ih]

/-- White space around a text changes none of its spans. -/
theorem spans_trim (cs : List Char) : spans (Chars.trim cs) = spans cs := by
  obtain ⟨before, after, hcs, hbefore, hafter⟩ := Chars.exists_trim cs
  have hnot {text : List Char} (h : ∀ c ∈ text, isBlank c = true) (c : Char)
      (hc : isBlank c = false) : c ∉ text := fun hmem => absurd (h c hmem) (by simp [hc])
  conv => rhs; rw [hcs]
  rw [List.append_assoc, spans_append_left (hnot hbefore _ (by decide)),
    spans_append_right (hnot hafter _ (by decide)) (hnot hafter _ (by decide))]

/-- A text between braces that reads as JSON is the first span of every text that starts with it. -/
theorem spans_object {v : Json} (h : parseChars? cs = some v) (hopen : cs.head? = some '\x7b')
    (hclose : cs.getLast? = some '\x7d') (after : List Char) :
    spans (cs ++ after) = cs :: spans after := by
  have hscan := afterClosing?_object h hopen hclose after
  obtain ⟨inner, rfl, -⟩ := balanced_of_parseChars?_braces h hopen hclose
  rw [List.cons_append] at hscan ⊢
  rw [spans_cons_of_some hscan, ← List.cons_append, List.take_left']
  simp only [List.length_cons, List.length_append]
  omega

end Spans

/-! ## The longest first -/

section LongestFirst

theorem longer_trans (s t u : List Char) (hst : decide (t.length ≤ s.length) = true)
    (htu : decide (u.length ≤ t.length) = true) : decide (u.length ≤ s.length) = true := by
  simp only [decide_eq_true_eq] at *
  omega

theorem longer_total (s t : List Char) :
    (decide (t.length ≤ s.length) || decide (s.length ≤ t.length)) = true := by
  simp only [Bool.or_eq_true, decide_eq_true_eq]
  omega

theorem pairwise_longestFirst (cs : List Char) :
    (longestFirst cs).Pairwise fun s t => t.length ≤ s.length :=
  (List.pairwise_mergeSort longer_trans longer_total (spans cs)).imp fun hst => by simpa using hst

theorem mem_longestFirst {cs span : List Char} : span ∈ longestFirst cs ↔ span ∈ spans cs :=
  List.mem_mergeSort

/-- Spans of one length come in the order of the text. -/
theorem filter_longestFirst (cs : List Char) (n : Nat) :
    (longestFirst cs).filter (·.length = n) = (spans cs).filter (·.length = n) := by
  refine filter_mergeSort longer_trans longer_total ?_ (spans cs)
  intro s t hs ht
  simp only [decide_eq_true_eq] at hs ht ⊢
  omega

end LongestFirst

/-! ## Spans by place -/

/-- The place of the brace that closes the one at `first`. -/
def closing? (text : List Char) (first : Nat) : Option Nat :=
  (afterClosing? (text.drop first)).map fun rest => text.length - rest.length - 1

/-- A place in a text from an opening brace to the one that closes it. -/
structure Span (text : List Char) where
  first : Nat
  last : Nat
  opens : text[first]? = some '\x7b'
  closes : closing? text first = some last

namespace Span

variable {text : List Char}

/-- What stands in the span, braces included. -/
def chars (s : Span text) : List Char := text.extract s.first (s.last + 1)

/-- No kept span starts before this one and reaches over its start. -/
def Kept (s : Span text) : Prop :=
  ∀ t : Span text, t.first < s.first → s.first ≤ t.last → ¬ t.Kept
termination_by s.first

theorem kept_iff (s : Span text) :
    s.Kept ↔ ∀ t : Span text, t.Kept → t.first < s.first → t.last < s.first := by
  rw [Kept]
  constructor
  · exact fun h t ht hlt => Nat.lt_of_not_le fun hle => h t hlt hle ht
  · exact fun h t hlt hle ht => absurd (h t ht hlt) (Nat.not_lt.2 hle)

theorem eq_of_first {s t : Span text} (h : s.first = t.first) : s = t := by
  obtain ⟨first, last, _, hs⟩ := s
  obtain ⟨first', last', _, ht⟩ := t
  obtain rfl : first = first' := h
  obtain rfl := Option.some.inj (hs.symm.trans ht)
  rfl

theorem first_lt_length (s : Span text) : s.first < text.length :=
  (List.getElem?_eq_some_iff.1 s.opens).1

theorem drop_first (s : Span text) : text.drop s.first = '\x7b' :: text.drop (s.first + 1) := by
  obtain ⟨hlt, hopen⟩ := List.getElem?_eq_some_iff.1 s.opens
  rw [List.drop_eq_getElem_cons hlt, hopen]

/-- What a scan from the opening brace leaves, in terms of the text. -/
theorem exists_split (s : Span text) : ∃ used,
    text.drop s.first = used ++ '\x7d' :: text.drop (s.last + 1) ∧
    s.last = s.first + used.length ∧ s.last < text.length ∧
    afterClosing? (text.drop s.first) = some (text.drop (s.last + 1)) := by
  obtain ⟨rest, hrest, hlast⟩ := Option.map_eq_some_iff.1 s.closes
  obtain ⟨used, hused⟩ := eq_append_of_afterClosingFrom? hrest
  have hlength := congrArg List.length hused
  have hfirst := s.first_lt_length
  simp only [List.length_drop, List.length_append, List.length_cons] at hlength
  have hdrop : text.drop (s.last + 1) = rest := by
    rw [show s.last + 1 = s.first + (used.length + 1) by omega, ← List.drop_drop, hused,
      ← List.drop_drop, List.drop_left, List.drop_one, List.tail_cons]
  exact ⟨used, by rw [hdrop, hused], by omega, by omega, by rw [hdrop, hrest]⟩

theorem first_le_last (s : Span text) : s.first ≤ s.last := by
  obtain ⟨used, -, hlast, -⟩ := s.exists_split
  omega

theorem length_chars (s : Span text) : s.chars.length = s.last + 1 - s.first := by
  obtain ⟨-, -, -, hlast, -⟩ := s.exists_split
  simp only [chars, List.extract_eq_take_drop, List.length_take, List.length_drop]
  omega

end Span

variable {text : List Char}

/-- A scan from an opening brace that ends gives a span. -/
theorem exists_span {first : Nat} {rest : List Char} (hopen : text[first]? = some '\x7b')
    (h : afterClosing? (text.drop first) = some rest) : ∃ s : Span text, s.first = first :=
  ⟨⟨first, text.length - rest.length - 1, hopen, by rw [closing?, h]; rfl⟩, rfl⟩

theorem spans_drop_span (s : Span text) :
    spans (text.drop s.first) = s.chars :: spans (text.drop (s.last + 1)) := by
  obtain ⟨used, -, hlast, hlt, hscan⟩ := s.exists_split
  rw [s.drop_first] at hscan ⊢
  rw [spans_cons_of_some hscan, ← s.drop_first, Span.chars, List.extract_eq_take_drop]
  congr 2
  simp only [List.length_drop]
  omega

theorem spans_drop_succ {first : Nat} (hlt : first < text.length)
    (hno : ∀ s : Span text, s.first ≠ first) :
    spans (text.drop first) = spans (text.drop (first + 1)) := by
  rw [List.drop_eq_getElem_cons hlt]
  by_cases hopen : text[first] = '\x7b'
  · rw [hopen]
    cases hscan : afterClosing? ('\x7b' :: text.drop (first + 1)) with
    | none => exact spans_cons_of_none hscan
    | some rest =>
      rw [← hopen, ← List.drop_eq_getElem_cons hlt] at hscan
      obtain ⟨s, hs⟩ := exists_span (List.getElem?_eq_some_iff.2 ⟨hlt, hopen⟩) hscan
      exact absurd hs (hno s)
  · exact spans_cons_of_ne hopen

/-- No kept span that starts before `first` reaches it. -/
def Clear (text : List Char) (first : Nat) : Prop :=
  ∀ t : Span text, t.Kept → t.first < first → t.last < first

namespace Clear

variable {first : Nat}

theorem kept {s : Span text} (h : Clear text s.first) : s.Kept := s.kept_iff.2 h

/-- A place stays clear behind the span that starts there. -/
theorem after {s : Span text} (h : Clear text s.first) : Clear text (s.last + 1) := by
  intro t ht hfirst
  have hle := s.first_le_last
  rcases Nat.lt_trichotomy t.first s.first with hlt | heq | hgt
  · have := h t ht hlt
    omega
  · rw [Span.eq_of_first heq]
    omega
  · have := t.kept_iff.1 ht s h.kept hgt
    omega

/-- A place stays clear behind a character at which no span starts. -/
theorem succ (h : Clear text first) (hno : ∀ s : Span text, s.first ≠ first) : Clear text (first + 1) := by
  intro t ht hfirst
  have hne := hno t
  have := h t ht (by omega)
  omega

end Clear

/-- The spans found from a clear place on. -/
theorem mem_spans_drop {first : Nat} {chars : List Char} (hclear : Clear text first) :
    chars ∈ spans (text.drop first) ↔
      ∃ s : Span text, s.Kept ∧ first ≤ s.first ∧ s.chars = chars := by
  induction hn : text.length - first using Nat.strongRecOn generalizing first with
  | ind n ih =>
    subst hn
    rcases Nat.lt_or_ge first text.length with hlt | hge
    · by_cases hspan : ∃ s : Span text, s.first = first
      · obtain ⟨s, rfl⟩ := hspan
        have hle := s.first_le_last
        rw [spans_drop_span, List.mem_cons, ih _ (by omega) hclear.after rfl]
        constructor
        · rintro (rfl | ⟨t, ht, hfirst, rfl⟩)
          · exact ⟨s, hclear.kept, Nat.le_refl _, rfl⟩
          · exact ⟨t, ht, by omega, rfl⟩
        · rintro ⟨t, ht, hfirst, rfl⟩
          rcases Nat.lt_or_eq_of_le hfirst with h | h
          · exact .inr ⟨t, ht, t.kept_iff.1 ht s hclear.kept h, rfl⟩
          · exact .inl (by rw [Span.eq_of_first h])
      · have hno : ∀ s : Span text, s.first ≠ first := fun s hs => hspan ⟨s, hs⟩
        rw [spans_drop_succ hlt hno, ih _ (by omega) (hclear.succ hno) rfl]
        constructor
        · rintro ⟨t, ht, hfirst, rfl⟩
          exact ⟨t, ht, by omega, rfl⟩
        · rintro ⟨t, ht, hfirst, rfl⟩
          have hne := hno t
          exact ⟨t, ht, by omega, rfl⟩
    · rw [List.drop_eq_nil_of_le hge, spans_nil]
      constructor
      · exact fun h => nomatch h
      · rintro ⟨t, -, hfirst, -⟩
        have := t.first_lt_length
        omega

/-- The spans that the scan finds are those that are kept. -/
theorem mem_spans_iff {chars : List Char} :
    chars ∈ spans text ↔ ∃ s : Span text, s.Kept ∧ s.chars = chars := by
  have h := @mem_spans_drop text 0 chars fun _ _ h => nomatch h
  simpa using h

end CodeReview.Response.Braces
