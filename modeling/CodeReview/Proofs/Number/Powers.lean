import CodeReview.Number.Binary64

/-!
# Powers of two

A power of two is a number of the format, unless it is `2 ^ 1024` or more (`ofInt?_two_pow_eq_none_iff`).
Below that it is rounded to itself: its mantissa is the smallest of 53 bits, whatever the power.
-/

namespace CodeReview.Binary64

attribute [local instance (high)] instPowNat instNatPowNat

/-- Scaled by a smaller power of two, a power of two stays one. -/
theorem scaled_two_pow {n : Nat} {power : Int} (h : power ≤ n) :
    ∃ d, 0 < d ∧ scaled (2 ^ n) 1 power = (2 ^ (n - power).toNat * d, d) := by
  unfold scaled
  split
  · refine ⟨2 ^ power.toNat, Nat.two_pow_pos _, ?_⟩
    rw [Nat.one_mul, ← Nat.pow_add]
    congr
    omega
  · refine ⟨1, Nat.one_pos, ?_⟩
    rw [Nat.mul_one, ← Nat.pow_add]
    congr
    omega

theorem roundDiv_mul (m : Nat) {d : Nat} (hd : 0 < d) : roundDiv (m * d) d = m := by
  simp [roundDiv, Nat.mul_div_cancel m hd, hd]

theorem powerFor_two_pow (n : Nat) : powerFor (2 ^ n) 1 = n - 52 := by
  have hguess : max (-1074) (((2 ^ n).log2 : Int) - (1 : Nat).log2 - 53) = n - 53 := by
    rw [Nat.log2_two_pow, show (1 : Nat).log2 = 0 from rfl]
    omega
  obtain ⟨d, hd, hscaled⟩ := @scaled_two_pow n (n - 53) (by omega)
  have hbits : (n - (n - 53 : Int)).toNat = 53 := by omega
  rw [powerFor, if_neg (Nat.ne_of_gt (Nat.two_pow_pos n)), hguess]
  dsimp only
  rw [hscaled, hbits]
  dsimp only
  rw [Nat.mul_div_cancel _ hd, if_neg (Nat.lt_irrefl _)]
  omega

theorem ofRatio_two_pow (n : Nat) : ofRatio false (2 ^ n) 1 =
    ofMagnitude false (min ((n + 1023) * 2 ^ (52 : Nat)) infiniteMagnitude) := by
  obtain ⟨d, hd, hscaled⟩ := @scaled_two_pow n (n - 52) (by omega)
  have hbits : (n - (n - 52 : Int)).toNat = 52 := by omega
  have hfield : (n - 52 + 1074 : Int).toNat = n + 1022 := by omega
  rw [ofRatio, powerFor_two_pow, hscaled, hbits]
  dsimp only
  rw [roundDiv_mul _ hd, hfield, ← Nat.succ_mul]

theorem isFinite_ofMagnitude {magnitude : Nat} (h : magnitude ≤ infiniteMagnitude) :
    (ofMagnitude false magnitude).isFinite = decide (magnitude / 2 ^ (52 : Nat) < 2047) := by
  rw [infiniteMagnitude] at h
  have hbits : (ofMagnitude false magnitude).bits.toNat = magnitude :=
    UInt64.toNat_ofNat_of_lt' (by rw [if_neg Bool.false_ne_true, UInt64.size]; omega)
  rw [isFinite, field, Binary64.magnitude, hbits, Nat.mod_eq_of_lt (by omega)]

/-- The powers of two that are too large for the format. -/
theorem ofInt?_two_pow_eq_none_iff (n : Nat) : ofInt? (2 ^ n : Nat) = none ↔ 1024 ≤ n := by
  have hsign : decide (((2 ^ n : Nat) : Int) < 0) = false :=
    decide_eq_false (Int.not_lt.2 (Int.natCast_nonneg _))
  rw [ofInt?, hsign, Int.natAbs_natCast, ofRatio_two_pow, isFinite_ofMagnitude (Nat.min_le_right _ _),
    infiniteMagnitude]
  split
  · next hfinite =>
    rw [decide_eq_true_eq] at hfinite
    simp only [reduceCtorEq, false_iff]
    omega
  · next hinfinite =>
    rw [decide_eq_true_eq] at hinfinite
    simp only [true_iff]
    omega

end CodeReview.Binary64
