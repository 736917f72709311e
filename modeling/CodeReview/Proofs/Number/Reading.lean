import CodeReview.Number.Reading
import CodeReview.Proofs.Text.Chars

/-!
# Runs of digits as numbers

Digits alone, of whatever script, always spell a whole number, unless there are more of them than
`digitLimit` (`readInteger_digits`). The digits of a number spell it (`readInteger_toDigits`).
-/

namespace CodeReview.Number

open Text

attribute [local instance (high)] instPowNat instNatPowNat

/-- One digit or more, and nothing else. -/
structure IsDigits (cs : List Char) : Prop where
  ne_nil : cs ≠ []
  isDigit : ∀ c ∈ cs, isDigit c = true

section Digits

variable {c : Char} {cs : List Char}

/-- Digits are no white space. Ten code points from a zero on meet none of its ranges. -/
theorem isBlank_of_isDigit (h : isDigit c = true) : isBlank c = false := by
  have hzeros : ∀ z ∈ digitZeros, 0xA0 < z ∧ (z + 9 < 0x1680 ∨ 0x1680 < z) ∧
      (z + 9 < 0x2000 ∨ 0x205F < z) ∧ (z + 9 < 0x3000 ∨ 0x3000 < z) := by decide
  rw [isDigit, digitValue?] at h
  unfold isBlank
  dsimp only at h ⊢
  split
  · next hn =>
    rw [if_pos hn] at h
    split at h
    · simp only [Bool.or_eq_false_iff, Bool.and_eq_false_iff, decide_eq_false_iff_not]
      omega
    · exact nomatch h
  · next hn =>
    rw [if_neg hn, Option.isSome_map] at h
    obtain ⟨z, hz⟩ := Option.isSome_iff_exists.1 h
    have hmem := hzeros z (List.mem_of_find?_eq_some hz)
    have hrange := List.find?_some hz
    simp only [Bool.and_eq_true, decide_eq_true_eq] at hrange
    simp only [Bool.or_eq_false_iff, Bool.and_eq_false_iff, decide_eq_false_iff_not, beq_eq_false_iff_ne]
    omega

/-- A run of digits is read to its end. -/
theorem digitRun_of_digits (h : ∀ c ∈ cs, isDigit c = true) :
    ∃ values, digitRun cs = (values, []) ∧ values.length = cs.length := by
  induction cs with
  | nil => exact ⟨[], rfl, rfl⟩
  | cons c cs ih =>
    obtain ⟨d, hd⟩ := Option.isSome_iff_exists.1 (h c List.mem_cons_self)
    obtain ⟨values, hvalues, hlength⟩ := ih fun c' hc' => h c' (List.mem_cons_of_mem c hc')
    rw [digitRun, hd]
    dsimp only
    split
    · exact absurd (h '_' (List.mem_cons_of_mem c List.mem_cons_self)) (by decide)
    · exact ⟨d :: values, by rw [hvalues], by rw [List.length_cons, hlength, List.length_cons]⟩

theorem trim_of_isDigits (h : IsDigits cs) : Chars.trim cs = cs := by
  obtain ⟨first, hfirst⟩ := Option.ne_none_iff_exists'.1 (mt List.head?_eq_none_iff.1 h.ne_nil)
  obtain ⟨last, hlast⟩ := Option.ne_none_iff_exists'.1 (mt List.getLast?_eq_none_iff.1 h.ne_nil)
  exact Chars.trim_eq_self hfirst hlast
    (isBlank_of_isDigit (h.isDigit first (List.mem_of_mem_head? hfirst)))
    (isBlank_of_isDigit (h.isDigit last (List.mem_of_getLast? hlast)))

theorem splitSign_of_isDigits (h : IsDigits cs) : splitSign cs = (false, cs) := by
  unfold splitSign
  split
  · exact absurd (h.isDigit '-' List.mem_cons_self) (by decide)
  · exact absurd (h.isDigit '+' List.mem_cons_self) (by decide)
  · rfl

/-- Digits are a whole number, or too many. -/
theorem readInteger_digits (h : IsDigits cs) :
    if digitLimit < cs.length then readInteger cs = .error (.tooLong cs.length)
    else ∃ n, readInteger cs = .ok n := by
  obtain ⟨values, hvalues, hlength⟩ := digitRun_of_digits h.isDigit
  have hne : values ≠ [] := by
    rintro rfl
    exact h.ne_nil (List.length_eq_zero_iff.1 hlength.symm)
  have hwhole : wholeOf values =
      if digitLimit < cs.length then .error (.tooLong cs.length) else .ok (ofDigits values) := by
    rw [wholeOf, hlength]
  cases values with
  | nil => exact absurd rfl hne
  | cons d values =>
    rw [readInteger, trim_of_isDigits h, splitSign_of_isDigits h]
    dsimp only
    rw [hvalues]
    dsimp only
    rw [hwhole]
    split
    · rfl
    · exact ⟨_, rfl⟩

end Digits

section Written

variable {c : Char} {cs : List Char} {n : Nat}

theorem isAsciiDigit_of_mem_toDigits (h : c ∈ Nat.toDigits 10 n) :
    isAsciiDigit c = true := by
  have hdigit := Nat.isDigit_of_mem_toDigits (by decide) (by decide) h
  simpa [Char.isDigit, isAsciiDigit, Char.le_def] using hdigit

theorem ofDigits_toDigits (n : Nat) :
    ofDigits ((Nat.toDigits 10 n).map (·.toNat - 48)) = n := by
  have h := @Nat.ofDigitChars_toDigits 10 n (by decide) (by decide)
  rw [Nat.ofDigitChars] at h
  rw [ofDigits, List.foldl_map]
  exact h

theorem foldl_digits (n : Nat) (ds : List Nat) :
    ds.foldl (fun n d => 10 * n + d) n = n * 10 ^ ds.length + ofDigits ds := by
  induction ds generalizing n with
  | nil => simp [ofDigits]
  | cons d ds ih =>
    rw [ofDigits, List.foldl_cons, List.foldl_cons, ih, ih (10 * 0 + d), List.length_cons, Nat.pow_succ]
    simp only [Nat.add_mul, Nat.mul_zero, Nat.zero_add, ← Nat.add_assoc]
    rw [Nat.mul_comm (10 ^ ds.length) 10, Nat.mul_left_comm, Nat.mul_assoc]

/-- Digits behind others. -/
theorem ofDigits_append (ds es : List Nat) :
    ofDigits (ds ++ es) = ofDigits ds * 10 ^ es.length + ofDigits es := by
  rw [ofDigits, List.foldl_append, foldl_digits, ← ofDigits]

theorem ofDigits_replicate_zero (n : Nat) : ofDigits (List.replicate n 0) = 0 := by
  induction n with
  | zero => rfl
  | succ n ih => rw [List.replicate_succ, ofDigits, List.foldl_cons, ← ofDigits, ih]

theorem ofDigits_lt {ds : List Nat} (h : ∀ d ∈ ds, d < 10) : ofDigits ds < 10 ^ ds.length := by
  induction ds with
  | nil => decide
  | cons d ds ih =>
    have hd := h d List.mem_cons_self
    have hds := ih fun d' hd' => h d' (List.mem_cons_of_mem d hd')
    have hle : d * 10 ^ ds.length ≤ 9 * 10 ^ ds.length := Nat.mul_le_mul_right _ (by omega)
    rw [ofDigits, List.foldl_cons, Nat.mul_zero, Nat.zero_add, foldl_digits, List.length_cons, Nat.pow_succ]
    omega

/-- A whole number that was read can be written. -/
theorem length_toDigits_of_wholeOf {ds : List Nat} (hds : ∀ d ∈ ds, d < 10) (h : wholeOf ds = .ok n) :
    (Nat.toDigits 10 n).length ≤ digitLimit := by
  rw [wholeOf] at h
  split at h
  · exact nomatch h
  · next hlength =>
    obtain rfl := Except.ok.inj h
    refine (Nat.length_toDigits_le_iff (by decide) (by decide)).2 ?_
    exact Nat.lt_of_lt_of_le (ofDigits_lt hds) (Nat.pow_le_pow_right (by decide) (Nat.not_lt.1 hlength))

theorem range_of_isAsciiDigit (h : isAsciiDigit c = true) : 48 ≤ c.toNat ∧ c.toNat ≤ 57 := by
  simpa [isAsciiDigit, Char.le_def, UInt32.le_iff_toNat_le] using h

theorem digitValue?_of_isAsciiDigit (h : isAsciiDigit c = true) : digitValue? c = some (c.toNat - 48) := by
  have hrange := range_of_isAsciiDigit h
  rw [digitValue?, if_pos (by omega), if_pos hrange]

theorem digitRun_of_asciiDigits (h : ∀ c ∈ cs, isAsciiDigit c = true) :
    digitRun cs = (cs.map (·.toNat - 48), []) := by
  induction cs with
  | nil => rfl
  | cons c cs ih =>
    rw [digitRun, digitValue?_of_isAsciiDigit (h c List.mem_cons_self)]
    dsimp only
    split
    · exact absurd (h '_' (List.mem_cons_of_mem c List.mem_cons_self)) (by decide)
    · rw [ih fun d hd => h d (List.mem_cons_of_mem c hd)]
      rfl

theorem lt_of_digitValue? {d : Nat} (h : digitValue? c = some d) : d < 10 := by
  rw [digitValue?] at h
  split at h
  · split at h
    · obtain rfl := Option.some.inj h
      omega
    · exact nomatch h
  · obtain ⟨first, hfirst, rfl⟩ := Option.map_eq_some_iff.1 h
    have hrange := List.find?_some hfirst
    simp only [Bool.and_eq_true, decide_eq_true_eq] at hrange
    omega

theorem lt_of_mem_digitRun {d : Nat} (h : d ∈ (digitRun cs).1) : d < 10 := by
  fun_induction digitRun cs with
  | case1 | case2 => exact absurd h List.not_mem_nil
  | case3 c value hvalue => exact List.mem_singleton.1 h ▸ lt_of_digitValue? hvalue
  | case4 c value hvalue c' cs' value' hvalue' ds rest hrun ih =>
    exact (List.mem_cons.1 h).elim (fun heq => heq ▸ lt_of_digitValue? hvalue) fun hmem => ih (hrun ▸ hmem)
  | case5 c value hvalue cs hlow ds rest hrun ih =>
    exact (List.mem_cons.1 h).elim (fun heq => heq ▸ lt_of_digitValue? hvalue) fun hmem => ih (hrun ▸ hmem)

/-- So can one with a sign and white space around it. -/
theorem length_toDigits_of_readInteger {n : Int} (h : readInteger cs = .ok n) :
    (Nat.toDigits 10 n.natAbs).length ≤ digitLimit := by
  have hdigits (d : Nat) (hd : d ∈ (digitRun (splitSign (Chars.trim cs)).2).1) : d < 10 := lt_of_mem_digitRun hd
  rw [readInteger] at h
  generalize splitSign (Chars.trim cs) = signed at h hdigits
  obtain ⟨negative, body⟩ := signed
  dsimp only at h hdigits
  split at h
  · exact nomatch h
  · exact nomatch h
  · next digits _ hrun =>
    rw [hrun] at hdigits
    cases hwhole : wholeOf digits with
    | error e =>
      rw [hwhole] at h
      exact nomatch h
    | ok whole =>
      rw [hwhole] at h
      obtain rfl := Except.ok.inj h
      have habs : (if negative then -(whole : Int) else whole).natAbs = whole := by split <;> omega
      rw [habs]
      exact length_toDigits_of_wholeOf hdigits hwhole

theorem isDigits_toDigits (n : Nat) : IsDigits (Nat.toDigits 10 n) := by
  refine ⟨Nat.toDigits_ne_nil, fun c hc => ?_⟩
  rw [isDigit, digitValue?_of_isAsciiDigit (isAsciiDigit_of_mem_toDigits hc)]
  rfl

/-- The digits of a number spell it. -/
theorem readInteger_toDigits (h : (Nat.toDigits 10 n).length ≤ digitLimit) :
    readInteger (Nat.toDigits 10 n) = .ok n := by
  have hdigits := isDigits_toDigits n
  have hwhole : wholeOf ((Nat.toDigits 10 n).map (·.toNat - 48)) = .ok n := by
    rw [wholeOf, List.length_map, if_neg (Nat.not_lt.2 h), ofDigits_toDigits]
  rw [readInteger, trim_of_isDigits hdigits, splitSign_of_isDigits hdigits]
  dsimp only
  rw [digitRun_of_asciiDigits fun c hc => isAsciiDigit_of_mem_toDigits hc]
  split
  · next hnil => simp [hdigits.ne_nil] at hnil
  · next hrest => exact nomatch (Prod.mk.inj hrest).2
  · next digits heq =>
    obtain ⟨rfl, -⟩ := Prod.mk.inj heq
    rw [hwhole]
    rfl

end Written

end CodeReview.Number
