import CodeReview.Proofs.Text.Case
import CodeReview.Proofs.Text.Lines

/-!
# Parts of a text in any case

A word that is looked for in the small letters of a text stands in the text itself, in capitals or small letters
(`hasPart_lower_iff`). Two letters have to be kept out of the word: the Kelvin sign becomes a `k`, and `İ` becomes
an `i` with a dot behind it.

* `lowerAfter_cons_cases`: what becomes of one character.
* `exists_of_prefix_lowerAfter`: a word at the start of the small letters is made of as many characters.
-/

namespace CodeReview.Text

variable {c d : Char} {word cs : List Char}

/-- Whether a text has a part, capitals of ASCII and small letters being the same. -/
def HasPartIgnoringCase (part cs : List Char) : Prop :=
  ∃ piece, piece <:+: cs ∧ piece.map Char.toLower = part

/-- A word of small letters that no letter beyond ASCII becomes. -/
structure IsSmallWord (word : List Char) : Prop where
  ne_nil : word ≠ []
  isLower : ∀ letter ∈ word, letter.isLower = true
  ne_kelvin : ∀ letter ∈ word, letter ≠ 'k'
  last_ne : word.getLast? ≠ some 'i'

/-! ## Single characters -/

theorem range_of_isLower (h : c.isLower = true) : 97 ≤ c.toNat ∧ c.toNat ≤ 122 := by
  unfold Char.isLower at h
  simpa [UInt32.le_iff_toNat_le] using h

theorem le_of_isLower_ofNat {n : Nat} (h : (Char.ofNat n).isLower = true) : n ≤ 122 := by
  by_cases hvalid : n.isValidChar
  · have hchar : (Char.ofNat n).toNat = n := by
      rw [Char.ofNat, dif_pos hvalid]
      rfl
    rw [← hchar]
    exact (range_of_isLower h).2
  · rw [Char.ofNat, dif_neg hvalid] at h
    exact absurd h (by decide)

/-- Every run beyond ASCII leads beyond ASCII, but for the Kelvin sign. -/
theorem image_of_mem_lowerRuns : ∀ run ∈ lowerRuns, 128 ≤ run.2.2.2 ∨ run.1 = run.2.1 ∧ run.2.2.2 = 107 := by
  decide +kernel

/-- No letter beyond ASCII becomes a small one, but for the Kelvin sign and `İ`. -/
theorem lowerChar_of_le (h : 128 ≤ c.toNat) : lowerChar c = ['i', '\u0307'] ∨
    ∃ d, lowerChar c = [d] ∧ (d.isLower = true → d = 'k') := by
  rw [lowerChar, if_neg (by omega), mapBeyondAscii]
  by_cases hspecial : c.toNat = 304
  · left
    rw [hspecial]
    decide
  · right
    have hlookup : lowerSpecial.lookup c.toNat = none := by
      rw [lowerSpecial, List.lookup_cons, beq_eq_false_iff_ne.2 hspecial]
      rfl
    rw [hlookup]
    refine ⟨_, rfl, ?_⟩
    intro hlower
    have hle := le_of_isLower_ofNat hlower
    unfold moveAlong at hle ⊢
    split at hle
    · next first last step image hfind =>
      have hrun := List.find?_some hfind
      simp only [Bool.and_eq_true, decide_eq_true_eq] at hrun
      rcases image_of_mem_lowerRuns _ (List.mem_of_find?_eq_some hfind) with himage | ⟨hsame, himage⟩
      · simp only at himage
        omega
      · simp only at hsame himage
        have hvalue : c.toNat - first + image = 107 := by omega
        rw [hvalue]
    · omega

/-- What becomes of the first character of a text. -/
theorem lowerAfter_cons_cases (casedBefore : Bool) (c : Char) (cs : List Char) : ∃ image casedBefore',
    lowerAfter casedBefore (c :: cs) = image ++ lowerAfter casedBefore' cs ∧
      (image = [c.toLower] ∨ image = ['i', '\u0307'] ∨ ∃ d, image = [d] ∧ (d.isLower = true → d = 'k')) := by
  refine ⟨_, _, rfl, ?_⟩
  split
  · -- neither form of the sigma is a letter of ASCII
    refine .inr (.inr ⟨_, rfl, ?_⟩)
    by_cases hend : (casedBefore && !casedAhead cs) = true
    · rw [if_pos hend]
      decide
    · rw [if_neg hend]
      decide
  · by_cases hc : c.toNat < 128
    · exact .inl (by rw [lowerChar, if_pos hc])
    · exact .inr (lowerChar_of_le (by omega))

theorem lowerAfter_cons_of_isLower (h : c.toLower.isLower = true) (casedBefore : Bool) (cs : List Char) :
    ∃ casedBefore', lowerAfter casedBefore (c :: cs) = c.toLower :: lowerAfter casedBefore' cs := by
  have hc : c.toNat < 128 := by
    by_contra hle
    rw [toLower_of_le (by omega)] at h
    have hrange := range_of_isLower h
    omega
  have hsigma : c ≠ 'Σ' := by
    rintro rfl
    exact absurd hc (by decide)
  refine ⟨if isCaseIgnorable c then casedBefore else isCased c, ?_⟩
  rw [lowerAfter, if_neg (mt beq_iff_eq.1 hsigma), lowerChar, if_pos hc]
  rfl

/-! ## Words -/

theorem exists_of_prefix_lowerAfter (hlower : ∀ letter ∈ word, letter.isLower = true)
    (hkelvin : ∀ letter ∈ word, letter ≠ 'k') (hlast : word.getLast? ≠ some 'i') {casedBefore : Bool}
    (h : word <+: lowerAfter casedBefore cs) : ∃ piece, piece <+: cs ∧ piece.map Char.toLower = word := by
  induction word generalizing cs casedBefore with
  | nil => exact ⟨[], List.nil_prefix, rfl⟩
  | cons letter word ih =>
    rw [List.forall_mem_cons] at hlower hkelvin
    cases cs with
    | nil => exact absurd h (by simp [lowerAfter])
    | cons c cs =>
      obtain ⟨image, casedBefore', heq, himage⟩ := lowerAfter_cons_cases casedBefore c cs
      rw [heq] at h
      rcases himage with rfl | rfl | ⟨d, rfl, hd⟩
      · obtain ⟨rfl, hprefix⟩ := List.cons_prefix_cons.1 h
        have hlast' : word.getLast? ≠ some 'i' := by
          intro hi
          exact hlast (by rw [List.getLast?_cons, hi]; rfl)
        obtain ⟨piece, hpiece, hmap⟩ := ih hlower.2 hkelvin.2 hlast' hprefix
        exact ⟨c :: piece, List.cons_prefix_cons.2 ⟨rfl, hpiece⟩, by rw [List.map_cons, hmap]⟩
      · obtain ⟨rfl, hprefix⟩ := List.cons_prefix_cons.1 h
        cases word with
        | nil => exact absurd rfl hlast
        | cons second word =>
          obtain ⟨rfl, -⟩ := List.cons_prefix_cons.1 hprefix
          exact absurd (hlower.2 _ List.mem_cons_self) (by decide)
      · obtain ⟨rfl, -⟩ := List.cons_prefix_cons.1 h
        exact absurd (hd hlower.1) hkelvin.1

theorem exists_of_infix_lowerAfter (hword : IsSmallWord word) {casedBefore : Bool}
    (h : word <:+: lowerAfter casedBefore cs) : HasPartIgnoringCase word cs := by
  have hprefix {cs : List Char} {casedBefore : Bool} (h : word <+: lowerAfter casedBefore cs) :
      HasPartIgnoringCase word cs := by
    obtain ⟨piece, hpiece, hmap⟩ :=
      exists_of_prefix_lowerAfter hword.isLower hword.ne_kelvin hword.last_ne h
    exact ⟨piece, hpiece.isInfix, hmap⟩
  induction cs generalizing casedBefore with
  | nil => exact absurd (List.infix_nil.1 h) hword.ne_nil
  | cons c cs ih =>
    have hcons (hrest : HasPartIgnoringCase word cs) : HasPartIgnoringCase word (c :: cs) := by
      obtain ⟨piece, hpiece, hmap⟩ := hrest
      exact ⟨piece, List.infix_cons hpiece, hmap⟩
    obtain ⟨image, casedBefore', heq, himage⟩ := lowerAfter_cons_cases casedBefore c cs
    have hsingle {d : Char} (himage : image = [d]) : HasPartIgnoringCase word (c :: cs) := by
      rw [heq, himage] at h
      rcases List.infix_cons_iff.1 h with hstart | hinside
      · exact hprefix (by rw [heq, himage]; exact hstart)
      · exact hcons (ih hinside)
    rcases himage with himage | rfl | ⟨d, himage, -⟩
    · exact hsingle himage
    · rw [heq] at h
      rcases List.infix_cons_iff.1 h with hstart | hinside
      · exact hprefix (by rw [heq]; exact hstart)
      · rcases List.infix_cons_iff.1 hinside with hstart | hinside
        · -- the dot above is no small letter
          obtain ⟨first, word, rfl⟩ := List.exists_cons_of_ne_nil hword.ne_nil
          obtain ⟨rfl, -⟩ := List.cons_prefix_cons.1 hstart
          exact absurd (hword.isLower _ List.mem_cons_self) (by decide)
        · exact hcons (ih hinside)
    · exact hsingle himage

/-- In small letters the text in front of a piece does not touch it. -/
theorem exists_lowerAfter_append (casedBefore : Bool) (front rest : List Char) :
    ∃ before casedBefore', lowerAfter casedBefore (front ++ rest) = before ++ lowerAfter casedBefore' rest := by
  induction front generalizing casedBefore with
  | nil => exact ⟨[], casedBefore, rfl⟩
  | cons c front ih =>
    obtain ⟨image, casedBefore', heq, -⟩ := lowerAfter_cons_cases casedBefore c (front ++ rest)
    obtain ⟨before, casedBefore', hfront⟩ := ih casedBefore'
    exact ⟨image ++ before, casedBefore', by rw [List.cons_append, heq, hfront, List.append_assoc]⟩

theorem prefix_lowerAfter_append {piece : List Char}
    (h : ∀ letter ∈ piece.map Char.toLower, letter.isLower = true) (casedBefore : Bool) (rest : List Char) :
    piece.map Char.toLower <+: lowerAfter casedBefore (piece ++ rest) := by
  induction piece generalizing casedBefore with
  | nil => exact List.nil_prefix
  | cons c piece ih =>
    rw [List.map_cons, List.forall_mem_cons] at h
    obtain ⟨casedBefore', heq⟩ := lowerAfter_cons_of_isLower h.1 casedBefore (piece ++ rest)
    rw [List.map_cons, List.cons_append, heq, List.cons_prefix_cons]
    exact ⟨rfl, ih h.2 casedBefore'⟩

theorem hasPart_lower_iff (hword : IsSmallWord word) :
    Chars.hasPart word (lower cs) = true ↔ HasPartIgnoringCase word cs := by
  rw [Chars.hasPart_iff]
  constructor
  · exact exists_of_infix_lowerAfter hword
  · rintro ⟨piece, ⟨front, behind, rfl⟩, rfl⟩
    rw [lower, List.append_assoc]
    obtain ⟨before, casedBefore, heq⟩ := exists_lowerAfter_append false front (piece ++ behind)
    rw [heq]
    exact (prefix_lowerAfter_append hword.isLower casedBefore behind).isInfix.trans
      (List.suffix_append before _).isInfix

end CodeReview.Text
