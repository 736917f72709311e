import CodeReview.Text.Case
import Mathlib.Data.List.Forall2

/-!
# Letters and what resembles them

A scan that takes capitals for small letters also takes letters beyond ASCII that only resemble one
(`sameLetter`). In small letters a text in ASCII is what the scan took it for
(`lower_of_forall₂`), and one with such a letter is something else, for the letter stays beyond ASCII
(`exists_mem_lower`).
-/

namespace CodeReview.Text

variable {letter c d : Char} {cs letters : List Char}

/-- Beyond ASCII a letter is small and capital at once. -/
theorem toLower_of_le (h : 128 ≤ c.toNat) : c.toLower = c := by
  unfold Char.toLower
  rw [dif_neg]
  rintro ⟨-, hle⟩
  have hcapital : c.toNat ≤ 'Z'.toNat := UInt32.le_iff_toNat_le.1 hle
  exact absurd (Nat.le_trans h hcapital) (by decide)

theorem toLower_of_sameLetter (hletter : letter.toLower = letter) (hc : c.toNat < 128)
    (h : sameLetter letter c = true) : c.toLower = letter := by
  have hbeyond {d : Char} (hd : 128 ≤ d.toNat) : c ≠ d := by
    rintro rfl
    omega
  simp only [sameLetter, Bool.or_eq_true, Bool.and_eq_true, beq_iff_eq] at h
  rcases h with (((rfl | h) | ⟨-, h | h⟩) | ⟨-, h⟩) | ⟨-, h⟩
  · exact hletter
  · exact h
  all_goals exact absurd h (hbeyond (by decide))

/-- The letters beyond ASCII that resemble one of ASCII other than `k`. -/
theorem eq_of_sameLetter (hletter : letter.toNat < 128) (hk : letter ≠ 'k') (hc : 128 ≤ c.toNat)
    (h : sameLetter letter c = true) : c = 'İ' ∨ c = 'ı' ∨ c = 'ſ' := by
  have hne : c ≠ letter := by
    rintro rfl
    omega
  simp only [sameLetter, toLower_of_le hc, Bool.or_eq_true, Bool.and_eq_true, beq_iff_eq] at h
  rcases h with (((h | h) | ⟨-, h | h⟩) | ⟨-, h⟩) | ⟨h, -⟩
  · exact absurd h hne
  · exact absurd h hne
  · exact .inl h
  · exact .inr (.inl h)
  · exact .inr (.inr h)
  · exact absurd h hk

/-! ## Small letters -/

theorem lowerAfter_of_ascii (h : ∀ c ∈ cs, c.toNat < 128) (casedBefore : Bool) :
    lowerAfter casedBefore cs = cs.map Char.toLower := by
  induction cs generalizing casedBefore with
  | nil => rfl
  | cons c cs ih =>
    have hc := h c List.mem_cons_self
    have hsigma : c ≠ 'Σ' := by
      rintro rfl
      exact absurd hc (by decide)
    rw [lowerAfter, if_neg (mt beq_iff_eq.1 hsigma), lowerChar, if_pos hc,
      ih fun d hd => h d (List.mem_cons_of_mem c hd)]
    rfl

/-- What a scan took for small letters it is in small letters, as long as it is in ASCII. -/
theorem lower_of_forall₂ (hletters : ∀ letter ∈ letters, letter.toLower = letter)
    (hsame : List.Forall₂ (sameLetter · · = true) letters cs) (hcs : ∀ c ∈ cs, c.toNat < 128) :
    lower cs = letters := by
  rw [lower, lowerAfter_of_ascii hcs]
  induction hsame with
  | nil => rfl
  | @cons letter c letters cs hletter _ ih =>
    rw [List.map_cons, ih (fun d hd => hletters d (List.mem_cons_of_mem letter hd))
        fun d hd => hcs d (List.mem_cons_of_mem c hd),
      toLower_of_sameLetter (hletters letter List.mem_cons_self) (hcs c List.mem_cons_self) hletter]

theorem mem_lowerAfter (hc : c ∈ cs) (hsigma : c ≠ 'Σ') (hd : d ∈ lowerChar c)
    (casedBefore : Bool) : d ∈ lowerAfter casedBefore cs := by
  induction cs generalizing casedBefore with
  | nil => exact nomatch hc
  | cons first cs ih =>
    rw [lowerAfter, List.mem_append]
    rcases List.mem_cons.1 hc with rfl | hc
    · rw [if_neg (mt beq_iff_eq.1 hsigma)]
      exact .inl hd
    · exact .inr (ih hc _)

/-- A letter that only resembles one of ASCII leaves one beyond ASCII in small letters. -/
theorem exists_mem_lower (hc : c ∈ cs) (h : c = 'İ' ∨ c = 'ı' ∨ c = 'ſ') :
    ∃ d ∈ lower cs, 128 ≤ d.toNat := by
  have hchar : c ≠ 'Σ' ∧ ∃ d ∈ lowerChar c, 128 ≤ d.toNat := by
    rcases h with rfl | rfl | rfl
    · exact ⟨by decide, '\u0307', by decide, by decide⟩
    · exact ⟨by decide, 'ı', by decide, by decide⟩
    · exact ⟨by decide, 'ſ', by decide, by decide⟩
  obtain ⟨hsigma, d, hd, hbeyond⟩ := hchar
  exact ⟨d, mem_lowerAfter hc hsigma hd false, hbeyond⟩

/-! ## Capitals -/

theorem range_of_isUpper (h : c.isUpper = true) : 65 ≤ c.toNat ∧ c.toNat ≤ 90 := by
  unfold Char.isUpper at h
  simpa [UInt32.le_iff_toNat_le] using h

/-- Capitals of ASCII stay as they are. -/
theorem upper_of_isUpper (h : ∀ c ∈ cs, c.isUpper = true) : upper cs = cs := by
  induction cs with
  | nil => rfl
  | cons c cs ih =>
    rw [List.forall_mem_cons] at h
    have hrange := range_of_isUpper h.1
    have hsmall : ¬ ('a'.val ≤ c.val ∧ c.val ≤ 'z'.val) := by
      rintro ⟨hlow, -⟩
      have hsmall : 97 ≤ c.toNat := UInt32.le_iff_toNat_le.1 hlow
      omega
    have hc : upperChar c = [c] := by
      rw [upperChar, if_pos (by omega)]
      unfold Char.toUpper
      rw [dif_neg hsmall]
    rw [upper, List.flatMap_cons, hc, ← upper, ih h.2]
    rfl

end CodeReview.Text
