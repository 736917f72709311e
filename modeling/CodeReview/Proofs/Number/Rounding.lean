import CodeReview.Number.Binary64
import Mathlib.Algebra.Order.Field.Rat
import Mathlib.Algebra.Order.Field.Power
import Mathlib.Tactic.FieldSimp
import Mathlib.Tactic.Linarith
import Mathlib.Tactic.NormNum
import Mathlib.Tactic.Positivity
import Mathlib.Tactic.Ring

/-!
# Rounding a quotient

What `ofRatio` makes of a quotient, in exact rationals. A quotient `q` is rounded at the one power of
two at which it fits (`Fits`), to the nearest whole number of units there (`IsNearest`); both are
unique, so that the result depends on `q` alone (`ofRatio_eq`).

* `ofRatio_eq_of_mem` : each quotient in the interval around a finite number is rounded to it. The
  interval reaches to the middle between the number and its neighbours; its ends belong to it if the
  mantissa is even.
* `ofInt?_eq_none_iff` : the whole numbers that no number of the format is near to.
-/

namespace CodeReview.Binary64

/-! ## Whole numbers -/

/-- The whole number nearest to `q`; between two it is the even one. -/
structure IsNearest (q : ℚ) (m : ℕ) : Prop where
  dist_le : |q - m| ≤ 1 / 2
  even : |q - m| = 1 / 2 → m % 2 = 0

theorem IsNearest.unique {q : ℚ} {m n : ℕ} (hm : IsNearest q m) (hn : IsNearest q n) : m = n := by
  by_contra hne
  wlog hlt : m < n generalizing m n
  · exact this hn hm (Ne.symm hne) (by omega)
  have hmq := abs_le.1 hm.dist_le
  have hnq := abs_le.1 hn.dist_le
  have hsucc : n = m + 1 := by
    have : (n : ℚ) < ((m + 2 : ℕ) : ℚ) := by push_cast; linarith [hmq.2, hnq.1]
    have := Nat.cast_lt.1 this
    omega
  subst hsucc
  push_cast at hnq
  -- both distances are one half, but only one of two neighbours is even
  have hhalf : q - m = 1 / 2 := by linarith [hmq.2, hnq.1]
  have heven := hm.even (by rw [hhalf]; norm_num)
  have hodd := hn.even (by push_cast; rw [show q - (m + 1) = -(1 / 2) by linarith]; norm_num)
  omega

theorem isNearest_roundDiv (num : ℕ) {den : ℕ} (hden : 0 < den) :
    IsNearest (num / den) (roundDiv num den) := by
  have hd : (0 : ℚ) < den := Nat.cast_pos.2 hden
  have hq : (num : ℚ) / den - (num / den : ℕ) = (num % den : ℕ) / den := by
    rw [sub_eq_iff_eq_add, div_add' _ _ _ hd.ne', div_left_inj' hd.ne']
    exact_mod_cast (Nat.mod_add_div' num den).symm
  have hlt : (num % den : ℕ) / (den : ℚ) < 1 :=
    (div_lt_one hd).2 (Nat.cast_lt.2 (Nat.mod_lt num hden))
  have hnonneg : (0 : ℚ) ≤ (num % den : ℕ) / (den : ℚ) := by positivity
  have htwice : ∀ k : ℕ, (k : ℚ) / den = 1 / 2 ↔ 2 * k = den := fun k => by
    rw [div_eq_div_iff hd.ne' two_ne_zero, one_mul, mul_comm]
    exact_mod_cast Iff.rfl
  have hhalf : ∀ k : ℕ, (k : ℚ) / den < 1 / 2 ↔ 2 * k < den := fun k => by
    rw [div_lt_div_iff₀ hd two_pos, one_mul, mul_comm]
    exact_mod_cast Iff.rfl
  simp only [roundDiv]
  split
  · next hdown =>
    simp only [Bool.or_eq_true, Bool.and_eq_true, decide_eq_true_eq, beq_iff_eq] at hdown
    refine ⟨?_, fun htie => ?_⟩
    · rw [hq, abs_of_nonneg hnonneg]
      rcases hdown with h | ⟨h, -⟩
      · exact ((hhalf _).2 h).le
      · exact ((htwice _).2 h).le
    · rw [hq, abs_of_nonneg hnonneg, htwice] at htie
      rcases hdown with h | ⟨-, h⟩
      · omega
      · exact h
  · next hup =>
    simp only [Bool.or_eq_true, Bool.and_eq_true, decide_eq_true_eq, beq_iff_eq, not_or, not_and] at hup
    have hge : 1 / 2 ≤ (num % den : ℕ) / (den : ℚ) := not_lt.1 fun h => hup.1 ((hhalf _).1 h)
    have hq' : (num : ℚ) / den - ((num / den + 1 : ℕ) : ℚ) = (num % den : ℕ) / den - 1 := by
      rw [← hq]
      push_cast
      ring
    have hdist : |(num : ℚ) / den - ((num / den + 1 : ℕ) : ℚ)| = 1 - (num % den : ℕ) / den := by
      rw [hq', abs_of_nonpos (by linarith), neg_sub]
    refine ⟨by rw [hdist]; linarith, fun htie => ?_⟩
    have := hup.2 ((htwice _).1 (by linarith))
    omega

/-! ## Powers of two -/

theorem zpow_of_nonneg (b : ℚ) {n : ℤ} (h : 0 ≤ n) : b ^ n = b ^ n.toNat := by
  rw [← zpow_natCast, Int.toNat_of_nonneg h]

theorem zpow_of_not_nonneg (b : ℚ) {n : ℤ} (h : ¬ 0 ≤ n) : b ^ n = (b ^ (-n).toNat)⁻¹ := by
  rw [← zpow_natCast, Int.toNat_of_nonneg (by omega), zpow_neg, inv_inv]

theorem scaled_eq (num : ℕ) {den : ℕ} (hden : 0 < den) (power : ℤ) :
    0 < (scaled num den power).2 ∧
      ((scaled num den power).1 : ℚ) / (scaled num den power).2 = num / den / 2 ^ power := by
  have hd : (0 : ℚ) < den := Nat.cast_pos.2 hden
  unfold scaled
  split
  · next h =>
    refine ⟨by positivity, ?_⟩
    rw [zpow_of_nonneg 2 h, div_div]
    push_cast
    rfl
  · next h =>
    refine ⟨hden, ?_⟩
    rw [zpow_of_not_nonneg 2 h, div_inv_eq_mul]
    push_cast
    ring

/-- The quotient `q` has 53 bits in units of `2 ^ p`, or fewer if these are the smallest units. -/
structure Fits (q : ℚ) (p : ℤ) : Prop where
  min_le : -1074 ≤ p
  lt : q < 2 ^ (53 + p)
  le : p = -1074 ∨ 2 ^ (52 + p) ≤ q

theorem lt_of_two_zpow_lt {q : ℚ} {m n : ℤ} (hm : 2 ^ m ≤ q) (hn : q < 2 ^ n) : m < n :=
  (zpow_lt_zpow_iff_right₀ one_lt_two).1 (hm.trans_lt hn)

theorem Fits.unique {q : ℚ} {p p' : ℤ} (h : Fits q p) (h' : Fits q p') : p = p' := by
  have hmin := h.min_le
  have hmin' := h'.min_le
  rcases h.le with hle | hle <;> rcases h'.le with hle' | hle'
  · omega
  · have := lt_of_two_zpow_lt hle' h.lt
    omega
  · have := lt_of_two_zpow_lt hle h'.lt
    omega
  · have := lt_of_two_zpow_lt hle h'.lt
    have := lt_of_two_zpow_lt hle' h.lt
    omega

/-- The bit lengths of both sides give a quotient to within a factor of two. -/
theorem quotient_mem_of_log2 {num den : ℕ} (hnum : num ≠ 0) (hden : den ≠ 0) :
    (2 : ℚ) ^ ((num.log2 : ℤ) - den.log2 - 1) ≤ num / den ∧
      (num : ℚ) / den < 2 ^ ((num.log2 : ℤ) - den.log2 + 1) := by
  have hd : (0 : ℚ) < den := Nat.cast_pos.2 (Nat.pos_of_ne_zero hden)
  have hnlo : (2 : ℚ) ^ (num.log2 : ℤ) ≤ num := by
    rw [zpow_natCast]; exact_mod_cast Nat.log2_self_le hnum
  have hnhi : (num : ℚ) < 2 ^ ((num.log2 : ℤ) + 1) := by
    rw [zpow_add_one₀ two_ne_zero, zpow_natCast, ← pow_succ]; exact_mod_cast Nat.lt_log2_self
  have hdlo : (2 : ℚ) ^ (den.log2 : ℤ) ≤ den := by
    rw [zpow_natCast]; exact_mod_cast Nat.log2_self_le hden
  have hdhi : (den : ℚ) < 2 ^ ((den.log2 : ℤ) + 1) := by
    rw [zpow_add_one₀ two_ne_zero, zpow_natCast, ← pow_succ]; exact_mod_cast Nat.lt_log2_self
  constructor
  · rw [le_div_iff₀ hd]
    calc (2 : ℚ) ^ ((num.log2 : ℤ) - den.log2 - 1) * den
        ≤ 2 ^ ((num.log2 : ℤ) - den.log2 - 1) * 2 ^ ((den.log2 : ℤ) + 1) := by gcongr
      _ = 2 ^ (num.log2 : ℤ) := by rw [← zpow_add₀ two_ne_zero]; congr 1; ring
      _ ≤ num := hnlo
  · rw [div_lt_iff₀ hd]
    calc (num : ℚ) < 2 ^ ((num.log2 : ℤ) + 1) := hnhi
      _ = 2 ^ ((num.log2 : ℤ) - den.log2 + 1) * 2 ^ (den.log2 : ℤ) := by
        rw [← zpow_add₀ two_ne_zero]; congr 1; ring
      _ ≤ 2 ^ ((num.log2 : ℤ) - den.log2 + 1) * den := by gcongr

theorem fits_powerFor (num : ℕ) {den : ℕ} (hden : 0 < den) : Fits (num / den) (powerFor num den) := by
  unfold powerFor
  split
  · next h =>
    subst h
    exact ⟨le_rfl, by rw [Nat.cast_zero, zero_div]; positivity, .inl rfl⟩
  · next hnum =>
    obtain ⟨hlo, hhi⟩ := quotient_mem_of_log2 hnum hden.ne'
    set guess : ℤ := max (-1074) ((num.log2 : ℤ) - den.log2 - 53) with hguess
    obtain ⟨hpos, hscaled⟩ := scaled_eq num hden guess
    have hbits : (scaled num den guess).1 / (scaled num den guess).2 < 2 ^ 53 ↔
        (num : ℚ) / den < 2 ^ (53 + guess) := by
      rw [Nat.div_lt_iff_lt_mul hpos, ← Nat.cast_lt (α := ℚ), Nat.cast_mul,
        ← div_lt_iff₀ (Nat.cast_pos.2 hpos), hscaled, div_lt_iff₀ (by positivity),
        zpow_add₀ two_ne_zero]
      norm_num
    dsimp only
    split
    · next h =>
      refine ⟨le_max_left _ _, hbits.1 h, ?_⟩
      rcases max_choice (-1074) ((num.log2 : ℤ) - den.log2 - 53) with hmax | hmax
      · exact .inl hmax
      · refine .inr ((zpow_le_zpow_right₀ one_le_two ?_).trans hlo)
        omega
    · next h =>
      refine ⟨by omega, hhi.trans_le (zpow_le_zpow_right₀ one_le_two (by omega)), .inr ?_⟩
      have := not_lt.1 (mt hbits.2 h)
      rwa [show 52 + (guess + 1) = 53 + guess by ring]

/-! ## The result -/

/-- A quotient is rounded where it fits, to what is nearest to it there. -/
theorem exists_ofRatio_eq (negative : Bool) (num : ℕ) {den : ℕ} (hden : 0 < den) :
    ∃ p m, Fits (num / den) p ∧ IsNearest (num / den / 2 ^ p) m ∧ ofRatio negative num den =
      ofMagnitude negative (min ((p + 1074).toNat * 2 ^ 52 + m) infiniteMagnitude) := by
  obtain ⟨hpos, hscaled⟩ := scaled_eq num hden (powerFor num den)
  have hnearest := isNearest_roundDiv (scaled num den (powerFor num den)).1 hpos
  rw [hscaled] at hnearest
  exact ⟨_, _, fits_powerFor num hden, hnearest, rfl⟩

theorem ofRatio_eq {negative : Bool} {num den m : ℕ} {p : ℤ} (hden : 0 < den)
    (hfits : Fits (num / den) p) (hm : IsNearest (num / den / 2 ^ p) m) :
    ofRatio negative num den =
      ofMagnitude negative (min ((p + 1074).toNat * 2 ^ 52 + m) infiniteMagnitude) := by
  obtain ⟨p', m', hfits', hm', heq⟩ := exists_ofRatio_eq negative num hden
  obtain rfl := hfits'.unique hfits
  rw [heq, hm'.unique hm]

section Magnitude

variable {negative : Bool} {magnitude : ℕ}

theorem toNat_bits_ofMagnitude (h : magnitude < 2 ^ 63) :
    (ofMagnitude negative magnitude).bits.toNat = if negative then magnitude + 2 ^ 63 else magnitude := by
  refine UInt64.toNat_ofNat_of_lt' ?_
  rw [UInt64.size]
  split <;> omega

theorem magnitude_ofMagnitude (h : magnitude < 2 ^ 63) :
    (ofMagnitude negative magnitude).magnitude = magnitude := by
  rw [Binary64.magnitude, toNat_bits_ofMagnitude h]
  split <;> omega

theorem negative_ofMagnitude (h : magnitude < 2 ^ 63) :
    (ofMagnitude negative magnitude).negative = negative := by
  rw [Binary64.negative, toNat_bits_ofMagnitude h]
  cases negative
  · simpa using h
  · simp

theorem ofMagnitude_magnitude (x : Binary64) : ofMagnitude x.negative x.magnitude = x := by
  obtain ⟨bits⟩ := x
  have hlt := bits.toNat_lt
  rw [ofMagnitude, Binary64.negative, Binary64.magnitude, mk.injEq, ← UInt64.toNat_inj,
    UInt64.toNat_ofNat_of_lt']
  · simp only [decide_eq_true_eq]
    split <;> omega
  · simp only [decide_eq_true_eq, UInt64.size]
    split <;> omega

end Magnitude

/-- The magnitude counts the smaller numbers: those of smaller powers, and those at its own. -/
theorem magnitude_eq (x : Binary64) : x.magnitude = (x.power + 1074).toNat * 2 ^ 52 + x.mantissa := by
  have hfield : x.field = x.magnitude / 2 ^ 52 := rfl
  have hfraction : x.fraction = x.magnitude % 2 ^ 52 := rfl
  rw [power, mantissa]
  split <;> omega

theorem magnitude_lt (x : Binary64) : x.magnitude < 2 ^ 63 := Nat.mod_lt _ (by decide)

theorem isFinite_iff (x : Binary64) : x.isFinite = true ↔ x.magnitude < infiniteMagnitude := by
  rw [isFinite, field, decide_eq_true_eq, Nat.div_lt_iff_lt_mul (by decide)]
  rfl

/-! ## The interval around a number -/

/-- How far below a number the interval reaches, in quarters of its last bit: to the middle of the
gap to the next smaller number, which is a shorter gap where the power changes. -/
def reachBelow (x : Binary64) : ℕ := if x.fraction = 0 && 1 < x.field then 1 else 2

/-- The quotients that are rounded to a finite number, apart from its sign. -/
structure Around (x : Binary64) (q : ℚ) : Prop where
  ge : (4 * x.mantissa - x.reachBelow) * 2 ^ (x.power - 2) ≤ q
  le : q ≤ (4 * x.mantissa + 2) * 2 ^ (x.power - 2)
  inside : x.mantissa % 2 = 1 → (4 * x.mantissa - x.reachBelow) * 2 ^ (x.power - 2) < q ∧
    q < (4 * x.mantissa + 2) * 2 ^ (x.power - 2)

theorem mantissa_lt (x : Binary64) : x.mantissa < 2 ^ 53 := by
  have hfraction : x.fraction = x.magnitude % 2 ^ 52 := rfl
  rw [mantissa]
  split <;> omega

theorem power_ge (x : Binary64) : -1074 ≤ x.power := by
  rw [power]
  split <;> omega

theorem power_le {x : Binary64} (h : x.isFinite = true) : x.power ≤ 971 := by
  rw [isFinite, decide_eq_true_eq] at h
  rw [power]
  split <;> omega

/-- A number in quarters of its last bit. -/
theorem units_eq (x : Binary64) : (x.mantissa : ℚ) * 2 ^ x.power = 4 * x.mantissa * 2 ^ (x.power - 2) := by
  rw [zpow_sub₀ two_ne_zero]
  norm_num
  ring

theorem isNearest_of_mem {q : ℚ} {m : ℕ} (hlo : m - 1 / 2 ≤ q) (hhi : q ≤ m + 1 / 2)
    (hodd : m % 2 = 1 → m - 1 / 2 < q ∧ q < m + 1 / 2) : IsNearest q m := by
  refine ⟨abs_le.2 ⟨by linarith, by linarith⟩, fun htie => ?_⟩
  by_contra hne
  have := hodd (by omega)
  rcases abs_eq (by norm_num) |>.1 htie with h | h <;> linarith

/-- The units of a power that is not the least are those of a full mantissa. At its smallest the
interval reaches only half as far down. -/
theorem mantissa_of_power_ne {x : Binary64} (h : x.power ≠ -1074) :
    2 ^ 52 ≤ x.mantissa ∧ (x.mantissa = 2 ^ 52 → x.reachBelow = 1) := by
  have hfield : ¬ x.field = 0 ∧ 1 < x.field := by
    rw [power] at h
    split at h <;> omega
  rw [mantissa, if_neg hfield.1, reachBelow]
  exact ⟨Nat.le_add_left _ _, fun hm => by simp [show x.fraction = 0 by omega, hfield.2]⟩

theorem reachBelow_le (x : Binary64) : x.reachBelow ≤ 2 := by
  rw [reachBelow]
  split <;> decide

/-- The interval in units of the last bit. -/
theorem Around.scaled {x : Binary64} {q : ℚ} (h : x.Around q) :
    x.mantissa - x.reachBelow / 4 ≤ q / 2 ^ x.power ∧ q / 2 ^ x.power ≤ x.mantissa + 1 / 2 ∧
      (x.mantissa % 2 = 1 →
        x.mantissa - x.reachBelow / 4 < q / 2 ^ x.power ∧ q / 2 ^ x.power < x.mantissa + 1 / 2) := by
  have hu : (0 : ℚ) < 2 ^ x.power := by positivity
  have hquarter : (2 : ℚ) ^ (x.power - 2) = 2 ^ x.power / 4 := by
    rw [zpow_sub₀ two_ne_zero]; norm_num
  obtain ⟨hge, hle, hinside⟩ := h
  rw [hquarter] at hge hle hinside
  refine ⟨?_, ?_, fun hodd => ?_⟩
  · rw [le_div_iff₀ hu]; linarith
  · rw [div_le_iff₀ hu]; linarith
  · obtain ⟨hgt, hlt⟩ := hinside hodd
    rw [lt_div_iff₀ hu, div_lt_iff₀ hu]
    exact ⟨by linarith, by linarith⟩

/-- Each quotient in the interval around a finite number is rounded to it. At a change of power the
quotients below the number are rounded in smaller units, and up to the next power. -/
theorem ofRatio_eq_of_around {x : Binary64} {num den : ℕ} (hfinite : x.isFinite = true) (hden : 0 < den)
    (h : x.Around (num / den)) (negative : Bool) :
    ofRatio negative num den = ofMagnitude negative x.magnitude := by
  obtain ⟨hge, hle, hinside⟩ := h.scaled
  have hreach : (x.reachBelow : ℚ) ≤ 2 := by exact_mod_cast x.reachBelow_le
  have hmantissa : (x.mantissa : ℚ) + 1 ≤ 2 ^ 53 := by exact_mod_cast x.mantissa_lt
  have hmin := x.power_ge
  have hmax := (isFinite_iff x).1 hfinite
  have hu : (0 : ℚ) < 2 ^ x.power := by positivity
  have hlt : (num : ℚ) / den < 2 ^ (53 + x.power) := by
    rw [zpow_add₀ two_ne_zero, ← div_lt_iff₀ hu, show (2 : ℚ) ^ (53 : ℤ) = 2 ^ 53 by norm_num]
    linarith
  by_cases hfits : x.power = -1074 ∨ 2 ^ (52 + x.power) ≤ (num : ℚ) / den
  · have hnearest : IsNearest (num / den / 2 ^ x.power) x.mantissa :=
      isNearest_of_mem (by linarith) hle fun hodd => ⟨by linarith [(hinside hodd).1], (hinside hodd).2⟩
    rw [ofRatio_eq hden ⟨hmin, hlt, hfits⟩ hnearest, ← magnitude_eq, min_eq_left hmax.le]
  · push Not at hfits
    obtain ⟨hpower, hbelow⟩ := hfits
    obtain ⟨hfull, hleast⟩ := mantissa_of_power_ne hpower
    have hbelow' : (num : ℚ) / den / 2 ^ x.power < 2 ^ 52 := by
      rwa [div_lt_iff₀ hu, ← zpow_natCast, ← zpow_add₀ two_ne_zero]
    -- only the least of the full mantissas has quotients of the next smaller power around it
    have hm : x.mantissa = 2 ^ 52 := by
      have hlt : (x.mantissa : ℚ) < ((2 ^ 52 + 1 : ℕ) : ℚ) := by push_cast; linarith
      have := Nat.cast_lt.1 hlt
      omega
    rw [hm, hleast hm] at hge
    push_cast at hge
    have hhalf : (2 : ℚ) ^ (x.power - 1) = 2 ^ x.power / 2 := by
      rw [zpow_sub_one₀ two_ne_zero, div_eq_mul_inv]
    have hfits : Fits (num / den) (x.power - 1) := by
      refine ⟨by omega, by rwa [show 53 + (x.power - 1) = 52 + x.power by ring], .inr ?_⟩
      rw [show 52 + (x.power - 1) = 51 + x.power by ring, zpow_add₀ two_ne_zero, ← le_div_iff₀ hu,
        show (2 : ℚ) ^ (51 : ℤ) = 2 ^ 51 by norm_num]
      linarith
    have hnearest : IsNearest (num / den / 2 ^ (x.power - 1)) (2 ^ 53) := by
      rw [hhalf, div_div_eq_mul_div, mul_div_right_comm]
      push_cast
      exact isNearest_of_mem (by push_cast; linarith) (by push_cast; linarith) fun hodd => by omega
    have hmagnitude : (x.power - 1 + 1074).toNat * 2 ^ 52 + 2 ^ 53 = x.magnitude := by
      rw [magnitude_eq, hm]
      omega
    rw [ofRatio_eq hden hfits hnearest, hmagnitude, min_eq_left hmax.le]

/-! ## What is too large -/

/-- The units that fit are never rounded past the next power of two. -/
theorem IsNearest.le_of_fits {q : ℚ} {p : ℤ} {m : ℕ} (hm : IsNearest (q / 2 ^ p) m) (h : Fits q p) :
    m ≤ 2 ^ 53 ∧ (p ≠ -1074 → 2 ^ 52 ≤ m) := by
  have hu : (0 : ℚ) < 2 ^ p := by positivity
  obtain ⟨hlo, hhi⟩ := abs_le.1 hm.dist_le
  refine ⟨?_, fun hp => ?_⟩
  · have hlt := h.lt
    rw [zpow_add₀ two_ne_zero, ← div_lt_iff₀ hu, show (2 : ℚ) ^ (53 : ℤ) = 2 ^ 53 by norm_num] at hlt
    have : (m : ℚ) < ((2 ^ 53 + 1 : ℕ) : ℚ) := by push_cast; linarith
    exact Nat.lt_succ_iff.1 (Nat.cast_lt.1 this)
  · have hle := h.le.resolve_left hp
    rw [zpow_add₀ two_ne_zero, ← le_div_iff₀ hu, show (2 : ℚ) ^ (52 : ℤ) = 2 ^ 52 by norm_num] at hle
    have : ((2 ^ 52 : ℕ) : ℚ) < ((m + 1 : ℕ) : ℚ) := by push_cast; linarith
    exact Nat.lt_succ_iff.1 (Nat.cast_lt.1 this)

/-- The whole number nearest to `q` is below an even one exactly if `q` is below the middle in front of that
one: in the middle the even one is the nearest. -/
theorem IsNearest.lt_iff {q : ℚ} {m n : ℕ} (hm : IsNearest q m) (hn : n % 2 = 0) :
    m < n ↔ q < n - 1 / 2 := by
  obtain ⟨hlo, hhi⟩ := abs_le.1 hm.dist_le
  constructor
  · intro h
    have hle : (m : ℚ) + 1 ≤ n := by exact_mod_cast h
    by_contra hge
    have hlast : (m : ℚ) + 1 = n := by linarith
    have heven := hm.even (by rw [abs_of_nonneg (by linarith)]; linarith)
    have : m + 1 = n := by exact_mod_cast hlast
    omega
  · intro h
    have : (m : ℚ) < n := by linarith
    exact Nat.cast_lt.1 this

/-- A quotient is rounded to an infinity from the middle between the largest finite number and the
next power of two on. -/
theorem isFinite_ofRatio (negative : Bool) (num : ℕ) {den : ℕ} (hden : 0 < den) :
    (ofRatio negative num den).isFinite = true ↔ (num : ℚ) / den < (2 ^ 54 - 1) * 2 ^ (970 : ℤ) := by
  obtain ⟨p, m, hfits, hm, heq⟩ := exists_ofRatio_eq negative num hden
  obtain ⟨hle, hge⟩ := hm.le_of_fits hfits
  have hmin := hfits.min_le
  have hfinite : (ofRatio negative num den).isFinite = true ↔
      (p + 1074).toNat * 2 ^ 52 + m < 2047 * 2 ^ 52 := by
    rw [heq, isFinite_iff, infiniteMagnitude, magnitude_ofMagnitude (by omega)]
    omega
  rw [hfinite]
  rcases lt_trichotomy p 971 with hp | rfl | hp
  · have hlt := hfits.lt.trans_le (zpow_le_zpow_right₀ one_le_two (show 53 + p ≤ 53 + 970 by omega))
    rw [zpow_add₀ two_ne_zero] at hlt
    refine iff_of_true (by omega) (hlt.trans_le ?_)
    gcongr
    norm_num
  · have hu : (2 : ℚ) ^ (971 : ℤ) = 2 * 2 ^ (970 : ℤ) := by
      rw [show (971 : ℤ) = 1 + 970 by norm_num, zpow_add₀ two_ne_zero, zpow_one]
    have hpos : (0 : ℚ) < 2 ^ (970 : ℤ) := by positivity
    have hcount : (971 + 1074 : ℤ).toNat * 2 ^ 52 + m < 2047 * 2 ^ 52 ↔ m < 2 ^ 53 := by omega
    have hunits : (num : ℚ) / den < (2 ^ 54 - 1) * 2 ^ (970 : ℤ) ↔
        (num : ℚ) / den / 2 ^ (971 : ℤ) < 2 ^ 53 - 1 / 2 := by
      rw [hu, div_lt_iff₀ (show (0 : ℚ) < 2 * 2 ^ (970 : ℤ) by positivity)]
      constructor <;> intro h <;> linarith
    have hcast : ((2 ^ 53 : ℕ) : ℚ) = 2 ^ 53 := by norm_num
    rw [hcount, hunits, ← hcast]
    exact hm.lt_iff (by norm_num)
  · have hge := hge (by omega)
    have hle := (zpow_le_zpow_right₀ one_le_two (show (54 : ℤ) + 970 ≤ 52 + p by omega)).trans
      (hfits.le.resolve_left (by omega))
    rw [zpow_add₀ two_ne_zero] at hle
    refine iff_of_false (by omega) (not_lt.2 (le_trans ?_ hle))
    gcongr
    norm_num

/-- The whole numbers that are too large for the format. -/
theorem ofInt?_eq_none_iff (n : ℤ) : ofInt? n = none ↔ 2 ^ 1024 - 2 ^ 970 ≤ n.natAbs := by
  have hround := isFinite_ofRatio (decide (n < 0)) n.natAbs one_pos
  rw [Nat.cast_one, div_one] at hround
  have hbound : (2 ^ 54 - 1 : ℚ) * 2 ^ (970 : ℤ) = (((2 ^ 54 - 1) * 2 ^ 970 : ℕ) : ℚ) := by
    rw [Nat.cast_mul, Nat.cast_pow, ← zpow_natCast]
    norm_num
  have hpow : 2 ^ 1024 - 2 ^ 970 = (2 ^ 54 - 1) * 2 ^ 970 := by
    rw [Nat.sub_mul, one_mul, ← pow_add]
  rw [hbound, Nat.cast_lt] at hround
  rw [ofInt?, hpow, ← not_lt, ← hround]
  simp

end CodeReview.Binary64
