import CodeReview.Text.Chars
import Mathlib.Data.List.TakeWhile

/-!
# Trimming, splitting and cutting

* `exists_trim`: a text is its trimmed form with white space around it, and `trim_append` takes such
  white space off again.
* `count_trim`: characters other than white space stay.
* `splitOn_append`: a text splits at a separator in it, and parts that are joined come back
  (`splitOn_join`).
* `cut?_append`: a cut goes on behind text in which the part does not occur.
* `cut?_append_of_some`: a cut does not look at what stands behind the part.
-/

namespace CodeReview.Chars

open Text

/-- What holds of all characters of a text is decided one character after the other. -/
instance decidableForallMem {p : Char → Prop} [DecidablePred p] (cs : List Char) :
    Decidable (∀ c ∈ cs, p c) :=
  List.decidableBAll p cs

/-! ## Splitting -/

/-- The parts of a text are those before and those behind a separator in it. -/
theorem splitOn_append (separator : Char) (before behind : List Char) :
    splitOn separator (before ++ separator :: behind) =
      splitOn separator before ++ splitOn separator behind := by
  induction before with
  | nil => rw [List.nil_append, splitOn_cons, if_pos (beq_self_eq_true separator)]; rfl
  | cons c before ih =>
    rw [List.cons_append, splitOn_cons, splitOn_cons, ih]
    split
    · rfl
    · obtain ⟨part, parts, hparts⟩ :=
        List.exists_cons_of_ne_nil (splitOn_ne_nil separator before)
      rw [hparts]
      rfl

theorem splitOn_of_notMem {separator : Char} {cs : List Char} (h : separator ∉ cs) :
    splitOn separator cs = [cs] := by
  induction cs with
  | nil => rfl
  | cons c cs ih =>
    obtain ⟨hc, hcs⟩ := not_or.1 (mt List.mem_cons.2 h)
    rw [splitOn_cons, if_neg (mt beq_iff_eq.1 (Ne.symm hc)), ih hcs]
    rfl

/-- No part of a text holds the separator. -/
theorem notMem_of_mem_splitOn {separator : Char} {cs part : List Char}
    (h : part ∈ splitOn separator cs) : separator ∉ part := by
  induction cs generalizing part with
  | nil => simp [List.mem_singleton.1 h]
  | cons c cs ih =>
    rw [splitOn_cons] at h
    split at h
    · rcases List.mem_cons.1 h with rfl | h
      · exact List.not_mem_nil
      · exact ih h
    · next hc =>
      obtain ⟨first, parts, hparts⟩ := List.exists_cons_of_ne_nil (splitOn_ne_nil separator cs)
      rw [hparts] at h ih
      rcases List.mem_cons.1 h with rfl | h
      · have hfirst := ih List.mem_cons_self
        simpa [hfirst] using Ne.symm (mt beq_iff_eq.2 hc)
      · exact ih (List.mem_cons_of_mem first h)

/-- Parts that do not hold the separator come back from the text that they are joined to. -/
theorem splitOn_join {separator : Char} {parts : List (List Char)}
    (h : ∀ part ∈ parts, separator ∉ part) (hne : parts ≠ []) :
    splitOn separator (join [separator] parts) = parts := by
  induction parts with
  | nil => exact absurd rfl hne
  | cons part parts ih =>
    have hpart := h part List.mem_cons_self
    by_cases hparts : parts = []
    · subst hparts
      simpa [join, List.intercalate] using splitOn_of_notMem hpart
    · rw [join_cons hparts, List.append_assoc, List.singleton_append, splitOn_append,
        splitOn_of_notMem hpart, ih (fun other hother => h other (List.mem_cons_of_mem part hother))
          hparts]
      rfl

/-- Besides the separator, a joined text holds what its parts hold. -/
theorem mem_join_iff {separator c : Char} (h : c ≠ separator) {parts : List (List Char)} :
    c ∈ join [separator] parts ↔ ∃ part ∈ parts, c ∈ part := by
  induction parts with
  | nil => simp [join]
  | cons part parts ih =>
    by_cases hparts : parts = []
    · subst hparts
      simp [join]
    · rw [join_cons hparts, List.append_assoc, List.mem_append, List.singleton_append, List.mem_cons, ih,
        or_iff_right h]
      simp

theorem afterLast_of_notMem {separator : Char} {cs : List Char} (h : separator ∉ cs) :
    afterLast separator cs = cs := by
  rw [afterLast, List.takeWhile_eq_self_iff.2, List.reverse_reverse]
  intro c hc
  exact bne_iff_ne.2 fun heq => h (heq ▸ List.mem_reverse.1 hc)

theorem afterLast_append {separator : Char} {cs : List Char} (h : separator ∉ cs)
    (before : List Char) : afterLast separator (before ++ separator :: cs) = cs := by
  have hreverse : (before ++ separator :: cs).reverse =
      cs.reverse ++ separator :: before.reverse := by simp
  rw [afterLast, hreverse, List.takeWhile_append_of_pos, List.takeWhile_cons_of_neg (by simp),
    List.append_nil, List.reverse_reverse]
  intro c hc
  exact bne_iff_ne.2 fun heq => h (heq ▸ List.mem_reverse.1 hc)

theorem beforeLast_append {separator : Char} {cs : List Char} (h : separator ∉ cs)
    (before : List Char) : beforeLast separator (before ++ separator :: cs) = before := by
  have hreverse : (before ++ separator :: cs).reverse =
      cs.reverse ++ separator :: before.reverse := by simp
  rw [beforeLast, hreverse, List.dropWhile_append_of_pos, List.dropWhile_cons_of_neg (by simp),
    List.drop_one, List.tail_cons, List.reverse_reverse]
  intro c hc
  exact bne_iff_ne.2 fun heq => h (heq ▸ List.mem_reverse.1 hc)

theorem notMem_afterLast (separator : Char) (cs : List Char) : separator ∉ afterLast separator cs := by
  intro hmem
  exact absurd (List.mem_takeWhile_imp (List.mem_reverse.1 hmem)) (by simp)

/-- A text is cut at the last of its separators. -/
theorem beforeLast_append_afterLast {separator : Char} {cs : List Char} (h : separator ∈ cs) :
    beforeLast separator cs ++ separator :: afterLast separator cs = cs := by
  have hdrop : ∃ rest, cs.reverse.dropWhile (· != separator) = separator :: rest := by
    have hne : cs.reverse.dropWhile (· != separator) ≠ [] := fun hnil =>
      absurd (List.dropWhile_eq_nil_iff.1 hnil separator (List.mem_reverse.2 h)) (by simp)
    obtain ⟨c, rest, hrest⟩ := List.exists_cons_of_ne_nil hne
    have hhead := List.head?_dropWhile_not (· != separator) cs.reverse
    rw [hrest] at hhead
    exact ⟨rest, by simpa using hrest.trans (congrArg (· :: rest) (by simpa using hhead))⟩
  obtain ⟨rest, hrest⟩ := hdrop
  have hreverse : cs.reverse = cs.reverse.takeWhile (· != separator) ++ separator :: rest := by
    rw [← hrest, List.takeWhile_append_dropWhile]
  rw [beforeLast, afterLast, hrest]
  have hcs := congrArg List.reverse hreverse
  rw [List.reverse_reverse] at hcs
  simpa using hcs.symm

/-- What follows the last separator of a joined text is its last part. -/
theorem afterLast_join {separator : Char} {part after : List Char} (h : separator ∉ part ++ after)
    (parts : List (List Char)) :
    afterLast separator (join [separator] (parts ++ [part]) ++ after) = part ++ after := by
  have hjoin : ∃ front, join [separator] (parts ++ [part]) = front ++ part ∧
      (front = [] ∨ ∃ init, front = init ++ [separator]) := by
    induction parts with
    | nil => exact ⟨[], by simp [join], .inl rfl⟩
    | cons first parts ih =>
      obtain ⟨front, hfront, hends⟩ := ih
      refine ⟨first ++ [separator] ++ front, ?_, .inr ?_⟩
      · rw [List.cons_append, join_cons (by simp), hfront, ← List.append_assoc]
      · rcases hends with rfl | ⟨init, rfl⟩
        · exact ⟨first, by simp⟩
        · exact ⟨first ++ [separator] ++ init, by simp⟩
  obtain ⟨front, hfront, rfl | ⟨init, rfl⟩⟩ := hjoin
  · rw [hfront, List.nil_append, afterLast_of_notMem h]
  · have hcut : init ++ [separator] ++ part ++ after = init ++ separator :: (part ++ after) := by simp
    rw [hfront, hcut, afterLast_append h]

theorem beforeLast_of_notMem {separator : Char} {cs : List Char} (h : separator ∉ cs) :
    beforeLast separator cs = [] := by
  rw [beforeLast, List.dropWhile_eq_nil_iff.2]
  · rfl
  · exact fun c hc => bne_iff_ne.2 fun heq => h (heq ▸ List.mem_reverse.1 hc)

/-! ## Trimming -/

section Trimming

variable {cs before after : List Char}

section Both

variable {p : Char → Bool}

theorem trimStart_append (h : ∀ c ∈ before, p c = true) :
    trimStart p (before ++ cs) = trimStart p cs :=
  List.dropWhile_append_of_pos h

theorem trimEnd_append (h : ∀ c ∈ after, p c = true) : trimEnd p (cs ++ after) = trimEnd p cs := by
  rw [trimEnd, List.reverse_append, List.dropWhile_append_of_pos (by simpa using h), trimEnd]

theorem trimStart_eq_nil (h : ∀ c ∈ cs, p c = true) : trimStart p cs = [] :=
  List.dropWhile_eq_nil_iff.2 h

/-- Characters around a text that are dropped anyway do not count. -/
theorem trimBoth_append (hbefore : ∀ c ∈ before, p c = true) (hafter : ∀ c ∈ after, p c = true) :
    trimBoth p (before ++ cs ++ after) = trimBoth p cs := by
  rw [trimBoth, List.append_assoc, trimStart_append hbefore, trimBoth, trimStart, List.dropWhile_append]
  split
  · next h =>
    rw [trimStart, List.isEmpty_iff.1 h]
    exact congrArg _ (trimStart_eq_nil hafter)
  · exact trimEnd_append hafter

/-- What is dropped at the end stands behind what is left. -/
theorem exists_trimEnd (p : Char → Bool) (cs : List Char) :
    ∃ after, cs = trimEnd p cs ++ after ∧ ∀ c ∈ after, p c = true := by
  refine ⟨(cs.reverse.takeWhile p).reverse, ?_, fun c hc => List.mem_takeWhile_imp (List.mem_reverse.1 hc)⟩
  rw [trimEnd, ← List.reverse_append, List.takeWhile_append_dropWhile, List.reverse_reverse]

/-- What is dropped stands around what is left. -/
theorem exists_trimBoth (p : Char → Bool) (cs : List Char) :
    ∃ before after, cs = before ++ trimBoth p cs ++ after ∧
      (∀ c ∈ before, p c = true) ∧ (∀ c ∈ after, p c = true) := by
  have hstart : cs.takeWhile p ++ trimStart p cs = cs := List.takeWhile_append_dropWhile
  obtain ⟨after, hend, hafter⟩ := exists_trimEnd p (trimStart p cs)
  refine ⟨cs.takeWhile p, after, ?_, fun c hc => List.mem_takeWhile_imp hc, hafter⟩
  rw [List.append_assoc, trimBoth, ← hend, hstart]

end Both

/-- White space around a text does not count. -/
theorem trim_append (hbefore : ∀ c ∈ before, isBlank c = true)
    (hafter : ∀ c ∈ after, isBlank c = true) : trim (before ++ cs ++ after) = trim cs :=
  trimBoth_append hbefore hafter

/-- A text is its trimmed form with white space around it. -/
theorem exists_trim (cs : List Char) : ∃ before after, cs = before ++ trim cs ++ after ∧
    (∀ c ∈ before, isBlank c = true) ∧ (∀ c ∈ after, isBlank c = true) :=
  exists_trimBoth isBlank cs

theorem trim_eq_nil_iff : trim cs = [] ↔ isBlankText cs = true := by
  rw [isBlankText, List.all_eq_true]
  constructor
  · intro h
    obtain ⟨before, after, hcs, hbefore, hafter⟩ := exists_trim cs
    rw [h, List.append_nil] at hcs
    rw [hcs]
    intro c hc
    rcases List.mem_append.1 hc with hc | hc
    · exact hbefore c hc
    · exact hafter c hc
  · intro h
    rw [trim, trimBoth, trimStart_eq_nil h]
    rfl

theorem trim_trim (cs : List Char) : trim (trim cs) = trim cs := by
  obtain ⟨before, after, hcs, hbefore, hafter⟩ := exists_trim cs
  conv => rhs; rw [hcs, trim_append hbefore hafter]

theorem isBlankText_trim (cs : List Char) : isBlankText (trim cs) = isBlankText cs := by
  rw [Bool.eq_iff_iff, ← trim_eq_nil_iff, trim_trim, trim_eq_nil_iff]

/-- A text is trimmed if nothing is to be dropped at either end. -/
theorem trimBoth_eq_self_iff {p : Char → Bool} : trimBoth p cs = cs ↔
    ∀ c, cs.head? = some c ∨ cs.getLast? = some c → p c = false := by
  constructor
  · intro h c hc
    have hstart : trimStart p cs = cs := by
      have hlength := congrArg List.length h
      rw [trimBoth, trimEnd, List.length_reverse] at hlength
      have hle := (List.dropWhile_sublist p (l := (trimStart p cs).reverse)).length_le
      rw [List.length_reverse] at hle
      exact (List.dropWhile_sublist p).eq_of_length_le (hlength ▸ hle)
    rcases hc with hc | hc
    · rw [← hstart, trimStart] at hc
      simpa [hc] using List.head?_dropWhile_not p cs
    · rw [← h, trimBoth, trimEnd, List.getLast?_reverse] at hc
      simpa [hc] using List.head?_dropWhile_not p (trimStart p cs).reverse
  · intro h
    have hdrop (cs : List Char) (hfirst : ∀ c, cs.head? = some c → p c = false) :
        cs.dropWhile p = cs := by
      cases cs with
      | nil => rfl
      | cons c cs => exact List.dropWhile_cons_of_neg (by simp [hfirst c rfl])
    rw [trimBoth, trimEnd, trimStart, hdrop cs fun c hc => h c (.inl hc), hdrop cs.reverse,
      List.reverse_reverse]
    intro c hc
    exact h c (.inr (List.head?_reverse ▸ hc))

/-- A text that starts and ends in something else than white space is trimmed. -/
theorem trim_eq_self {first last : Char} (hfirst : cs.head? = some first)
    (hlast : cs.getLast? = some last) (hf : isBlank first = false) (hl : isBlank last = false) :
    trim cs = cs := by
  refine trimBoth_eq_self_iff.2 fun c hc => ?_
  rcases hc with hc | hc
  · exact Option.some.inj (hfirst.symm.trans hc) ▸ hf
  · exact Option.some.inj (hlast.symm.trans hc) ▸ hl

/-- A trimmed text neither starts nor ends in white space. -/
theorem ends_of_trim (h : trim cs = cs) {c : Char} (hc : cs.head? = some c ∨ cs.getLast? = some c) :
    isBlank c = false :=
  trimBoth_eq_self_iff.1 h c hc

/-- A trimmed text stays so behind another text that does not start in white space. -/
theorem trim_append_of_head? {c : Char} (hfirst : before.head? = some c) (hc : isBlank c = false)
    (hne : cs ≠ []) (h : trim cs = cs) : trim (before ++ cs) = before ++ cs := by
  obtain ⟨last, hlast⟩ := Option.ne_none_iff_exists'.1 (mt List.getLast?_eq_none_iff.1 hne)
  refine trim_eq_self ?_ ?_ hc (ends_of_trim h (.inr hlast))
  · rw [List.head?_append, hfirst, Option.some_or]
  · rw [List.getLast?_append, hlast, Option.some_or]

theorem count_dropWhile {p : Char → Bool} {c : Char} (hc : p c = false) (cs : List Char) :
    (cs.dropWhile p).count c = cs.count c := by
  have hdropped : (cs.takeWhile p).count c = 0 :=
    List.count_eq_zero_of_not_mem fun h => by simp [List.mem_takeWhile_imp h] at hc
  calc (cs.dropWhile p).count c = (cs.takeWhile p ++ cs.dropWhile p).count c := by
        rw [List.count_append, hdropped, Nat.zero_add]
    _ = cs.count c := by rw [List.takeWhile_append_dropWhile]

theorem count_trimBoth {p : Char → Bool} {c : Char} (hc : p c = false) (cs : List Char) :
    (trimBoth p cs).count c = cs.count c := by
  rw [trimBoth, trimEnd, List.count_reverse, count_dropWhile hc, List.count_reverse, trimStart,
    count_dropWhile hc]

theorem count_trim {c : Char} (hc : isBlank c = false) (cs : List Char) :
    (trim cs).count c = cs.count c :=
  count_trimBoth hc cs

/-- What follows the last separator is the same of a text that is trimmed first. -/
theorem trim_afterLast_trim {separator : Char} (h : isBlank separator = false) (cs : List Char) :
    trim (afterLast separator (trim cs)) = trim (afterLast separator cs) := by
  obtain ⟨before, after, hcs, hbefore, hafter⟩ := exists_trim cs
  have hblank {text : List Char} (htext : ∀ c ∈ text, isBlank c = true) : separator ∉ text := fun hmem => by
    rw [htext _ hmem] at h
    exact nomatch h
  by_cases hmem : separator ∈ trim cs
  · have hlast : separator ∉ afterLast separator (trim cs) ++ after :=
      List.not_mem_append (notMem_afterLast separator _) (hblank hafter)
    have hcut : before ++ trim cs ++ after = (before ++ beforeLast separator (trim cs)) ++
        separator :: (afterLast separator (trim cs) ++ after) := by
      conv => lhs; rw [← beforeLast_append_afterLast hmem]
      simp
    conv => rhs; rw [hcs, hcut, afterLast_append hlast]
    exact (trim_append (List.forall_mem_nil _) hafter).symm
  · have hcs' : separator ∉ cs := by
      rw [hcs]
      simp [hblank hbefore, hmem, hblank hafter]
    rw [afterLast_of_notMem hmem, afterLast_of_notMem hcs', trim_trim]

end Trimming

/-! ## Occurrences -/

section Searching

variable {part cs after : List Char}

theorem cutAfter?_eq (part seen cs : List Char) :
    cutAfter? part seen cs =
      (cut? part cs).map fun found => (seen.reverse ++ found.1, found.2) := by
  induction cs generalizing seen with
  | nil =>
    rw [cut?, cutAfter?, cutAfter?]
    split <;> simp
  | cons c cs ih =>
    rw [cut?, cutAfter?, cutAfter?]
    split
    · simp
    · rw [ih (c :: seen), ih [c], Option.map_map]
      congr 1
      funext found
      simp

theorem cut?_of_dropPrefix? {rest : List Char} {c : Char}
    (h : dropPrefix? part (c :: cs) = some rest) : cut? part (c :: cs) = some ([], rest) := by
  rw [cut?, cutAfter?, h]
  rfl

theorem cut?_cons {c : Char} (h : dropPrefix? part (c :: cs) = none) :
    cut? part (c :: cs) = (cut? part cs).map fun found => (c :: found.1, found.2) := by
  rw [cut?, cutAfter?, h]
  exact cutAfter?_eq part [c] cs

/-- A text is cut where a part occurs. -/
theorem isSome_cut? : (cut? part cs).isSome = hasPart part cs := by
  induction cs with
  | nil =>
    rw [cut?, cutAfter?, hasPart]
    split <;> simp_all
  | cons c cs ih =>
    rw [hasPart]
    cases h : dropPrefix? part (c :: cs) with
    | some rest => rw [cut?_of_dropPrefix? h]; rfl
    | none => rw [cut?_cons h, Option.isSome_map, ih]; rfl

/-- More text behind a cut changes nothing in front of it. -/
theorem cut?_append_of_some {before behind : List Char} (h : cut? part cs = some (before, behind))
    (after : List Char) : cut? part (cs ++ after) = some (before, behind ++ after) := by
  induction cs generalizing before with
  | nil =>
    rw [cut?, cutAfter?] at h
    split at h
    · next hpart =>
      obtain ⟨rfl, rfl⟩ := Prod.mk.inj (Option.some.inj h)
      obtain rfl := List.isEmpty_iff.1 hpart
      cases after with
      | nil => rfl
      | cons c after => exact cut?_of_dropPrefix? rfl
    · cases h
  | cons c cs ih =>
    cases hpart : dropPrefix? part (c :: cs) with
    | some rest =>
      rw [cut?_of_dropPrefix? hpart] at h
      obtain ⟨rfl, rfl⟩ := Prod.mk.inj (Option.some.inj h)
      refine cut?_of_dropPrefix? (dropPrefix?_eq_some_iff.2 ?_)
      rw [← List.append_assoc, ← dropPrefix?_eq_some_iff.1 hpart]
      rfl
    | none =>
      rw [cut?_cons hpart, Option.map_eq_some_iff] at h
      obtain ⟨⟨before, behind⟩, hcut, heq⟩ := h
      obtain ⟨rfl, rfl⟩ := Prod.mk.inj heq
      -- the part stands further on in the text, so one that starts here would end in the text too
      have hnone : dropPrefix? part (c :: (cs ++ after)) = none := by
        cases hfound : dropPrefix? part (c :: (cs ++ after)) with
        | none => rfl
        | some rest =>
          have hlength := length_of_cut? hcut
          have hstart : part <+: c :: cs := by
            refine List.prefix_of_prefix_length_le ⟨rest, (dropPrefix?_eq_some_iff.1 hfound).symm⟩
              (List.prefix_append (c :: cs) after) ?_
            rw [List.length_cons]
            omega
          obtain ⟨rest, hrest⟩ := hstart
          rw [dropPrefix?_eq_some_iff.2 hrest.symm] at hpart
          cases hpart
      rw [List.cons_append, cut?_cons hnone, ih hcut]
      rfl

/-- A part that starts in front of a character which it does not hold ends in front of it too. -/
theorem dropPrefix?_append {c : Char} (hc : c ∉ part)
    (h : ∀ rest, cs ≠ part ++ rest) : dropPrefix? part (cs ++ c :: after) = none := by
  cases hfound : dropPrefix? part (cs ++ c :: after) with
  | none => rfl
  | some rest =>
    rcases List.append_eq_append_iff.1 (dropPrefix?_eq_some_iff.1 hfound) with
      ⟨inner, hpart, hinner⟩ | ⟨inner, hcs, -⟩
    · cases inner with
      | nil => exact absurd (by simp [hpart]) (h [])
      | cons d inner =>
        obtain ⟨rfl, -⟩ := List.cons.inj hinner
        exact absurd (by simp [hpart]) hc
    · exact absurd hcs (h inner)

/-- A cut goes on behind text in which the part does not occur, if a character that the part does
not hold stands in between. -/
theorem cut?_append {c : Char} (hc : c ∉ part) (h : hasPart part cs = false) (after : List Char) :
    cut? part (cs ++ c :: after) =
      (cut? part after).map fun found => (cs ++ c :: found.1, found.2) := by
  induction cs with
  | nil =>
    have hne : part ≠ [] := by
      rintro rfl
      exact absurd h (by simp [hasPart])
    exact cut?_cons (@dropPrefix?_append part [] after c hc
      fun rest heq => hne (List.append_eq_nil_iff.1 heq.symm).1)
  | cons d cs ih =>
    rw [hasPart, Bool.or_eq_false_iff] at h
    have hd : dropPrefix? part (d :: cs ++ c :: after) = none := by
      refine dropPrefix?_append hc fun rest heq => ?_
      rw [dropPrefix?_eq_some_iff.2 heq] at h
      exact absurd h.1 (by simp)
    rw [List.cons_append] at hd ⊢
    rw [cut?_cons hd, ih h.2, Option.map_map]
    rfl

end Searching

end CodeReview.Chars
