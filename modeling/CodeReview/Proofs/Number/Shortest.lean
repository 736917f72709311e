import CodeReview.Number.Decimal
import CodeReview.Proofs.Number.Reading
import CodeReview.Proofs.Number.Rounding

/-!
# Decimals that read back
-/

namespace CodeReview.Binary64

/-! ## One number of digits -/

/-- What a decimal stands for. -/
def Decimal.value (d : Decimal) : ℚ := d.digits * 10 ^ d.exponent

section ReadBack

variable {x : Binary64}

/-- Both scales at once: a step stands for a power of ten, and a unit for a quarter of the last bit. -/
theorem exists_scale (power exponent : ℤ) :
    let units := scaled 1 1 (-(power - 2))
    let tens : ℕ × ℕ := if 0 ≤ exponent then (10 ^ exponent.toNat, 1) else (1, 10 ^ (-exponent).toNat)
    ∃ c : ℚ, 0 < c ∧ ((tens.1 * units.2 : ℕ) : ℚ) = c * 10 ^ exponent ∧
      ((units.1 * tens.2 : ℕ) : ℚ) = c * 2 ^ (power - 2) := by
  intro units tens
  obtain ⟨hpos, hunits⟩ := scaled_eq 1 one_pos (-(power - 2))
  have htens : 0 < tens.2 ∧ (tens.1 : ℚ) = tens.2 * 10 ^ exponent := by
    simp only [tens]
    split
    · next h => exact ⟨one_pos, by simp [zpow_of_nonneg (10 : ℚ) h]⟩
    · next h =>
      have hten : (10 : ℚ) ^ (-exponent).toNat ≠ 0 := by positivity
      refine ⟨by positivity, ?_⟩
      rw [zpow_of_not_nonneg 10 h]
      push_cast
      exact (mul_inv_cancel₀ hten).symm
  have hden : (0 : ℚ) < units.2 := Nat.cast_pos.2 hpos
  have hnum : (units.1 : ℚ) = units.2 * 2 ^ (power - 2) := by
    rw [Nat.cast_one, div_one, zpow_neg, div_inv_eq_mul, one_mul, div_eq_iff hden.ne'] at hunits
    rw [hunits, mul_comm]
  refine ⟨tens.2 * units.2, mul_pos (Nat.cast_pos.2 htens.1) hden, ?_, ?_⟩
  · rw [Nat.cast_mul, htens.2]
    ring
  · rw [Nat.cast_mul, hnum]
    ring

section Scales

variable {c : ℚ} {step unit : ℕ} {exponent : ℤ} (hc : 0 < c) (hstep : (step : ℚ) = c * 10 ^ exponent)
  (hunit : (unit : ℚ) = c * 2 ^ (x.power - 2))

include hc hstep hunit

/-- What reads back, in both scales at once. -/
theorem around_iff (hpos : 0 < x.mantissa) (a : ℕ) :
    (if x.mantissa % 2 == 0 then
        decide ((4 * x.mantissa - x.reachBelow) * unit ≤ a * step) &&
          decide (a * step ≤ (4 * x.mantissa + 2) * unit)
      else
        decide ((4 * x.mantissa - x.reachBelow) * unit < a * step) &&
          decide (a * step < (4 * x.mantissa + 2) * unit)) =
      true ↔ x.Around (a * 10 ^ exponent) := by
  have hreach : x.reachBelow ≤ 4 * x.mantissa := by
    have := x.reachBelow_le
    omega
  have hlow : (((4 * x.mantissa - x.reachBelow) * unit : ℕ) : ℚ) =
      c * ((4 * x.mantissa - x.reachBelow) * 2 ^ (x.power - 2)) := by
    rw [Nat.cast_mul, Nat.cast_sub hreach, hunit]
    push_cast
    ring
  have hhigh : (((4 * x.mantissa + 2) * unit : ℕ) : ℚ) = c * ((4 * x.mantissa + 2) * 2 ^ (x.power - 2)) := by
    rw [Nat.cast_mul, hunit]
    push_cast
    ring
  have hmultiple : ((a * step : ℕ) : ℚ) = c * (a * 10 ^ exponent) := by
    rw [Nat.cast_mul, hstep]
    ring
  split
  · next heven =>
    rw [beq_iff_eq] at heven
    rw [Bool.and_eq_true, decide_eq_true_eq, decide_eq_true_eq, ← Nat.cast_le (α := ℚ), ← Nat.cast_le (α := ℚ),
      hlow, hhigh, hmultiple, mul_le_mul_iff_right₀ hc, mul_le_mul_iff_right₀ hc]
    exact ⟨fun h => ⟨h.1, h.2, fun hodd => by omega⟩, fun h => ⟨h.ge, h.le⟩⟩
  · next hodd =>
    rw [beq_iff_eq] at hodd
    rw [Bool.and_eq_true, decide_eq_true_eq, decide_eq_true_eq, ← Nat.cast_lt (α := ℚ), ← Nat.cast_lt (α := ℚ),
      hlow, hhigh, hmultiple, mul_lt_mul_iff_right₀ hc, mul_lt_mul_iff_right₀ hc]
    exact ⟨fun h => ⟨h.1.le, h.2.le, fun _ => h⟩, fun h => h.inside (by omega)⟩

/-- The nearer of two neighbours is at most half a step away. -/
theorem abs_nearer_sub_le :
    let value := 4 * x.mantissa * unit
    let lower := value / step
    |((if 2 * value < (lower + (lower + 1)) * step ||
        (2 * value == (lower + (lower + 1)) * step && lower % 2 == 0) then lower else lower + 1 : ℕ) : ℚ) *
      10 ^ exponent - x.mantissa * 2 ^ x.power| ≤ 10 ^ exponent / 2 := by
  intro value lower
  have hpos : 0 < step := by
    rw [← Nat.cast_pos (α := ℚ), hstep]
    positivity
  have hmultiple (a : ℕ) : ((a * step : ℕ) : ℚ) = c * (a * 10 ^ exponent) := by
    rw [Nat.cast_mul, hstep]
    ring
  have hvalue (k : ℕ) : ((k * value : ℕ) : ℚ) = c * (k * (x.mantissa * 2 ^ x.power)) := by
    rw [Nat.cast_mul, Nat.cast_mul, hunit, units_eq]
    push_cast
    ring
  have hlower : (lower : ℚ) * 10 ^ exponent ≤ x.mantissa * 2 ^ x.power := by
    have h : lower * step ≤ 1 * value := by rw [one_mul]; exact Nat.div_mul_le_self value step
    rwa [← Nat.cast_le (α := ℚ), hmultiple, hvalue, mul_le_mul_iff_right₀ hc, Nat.cast_one, one_mul] at h
  have hupper : x.mantissa * 2 ^ x.power < (lower + 1 : ℚ) * 10 ^ exponent := by
    have h : 1 * value < (lower + 1) * step := by
      rw [one_mul]
      exact (Nat.div_lt_iff_lt_mul hpos).1 (Nat.lt_succ_self lower)
    rwa [← Nat.cast_lt (α := ℚ), hmultiple, hvalue, mul_lt_mul_iff_right₀ hc, Nat.cast_one, one_mul,
      Nat.cast_add_one] at h
  rw [abs_le]
  split
  · next hdown =>
    have h : 2 * value ≤ (lower + (lower + 1)) * step := by
      simp only [Bool.or_eq_true, Bool.and_eq_true, decide_eq_true_eq, beq_iff_eq] at hdown
      omega
    rw [← Nat.cast_le (α := ℚ), hmultiple, hvalue, mul_le_mul_iff_right₀ hc] at h
    push_cast at h
    exact ⟨by linarith, by linarith⟩
  · next hup =>
    have h : (lower + (lower + 1)) * step ≤ 2 * value := by
      simp only [Bool.or_eq_true, Bool.and_eq_true, decide_eq_true_eq, beq_iff_eq] at hup
      omega
    rw [← Nat.cast_le (α := ℚ), hmultiple, hvalue, mul_le_mul_iff_right₀ hc] at h
    push_cast at h ⊢
    exact ⟨by linarith, by linarith⟩

end Scales

/-- What is found of one number of digits. -/
structure ReadsBackAt (x : Binary64) (exponent : ℤ) (found : Option Decimal) : Prop where
  around {d : Decimal} (h : found = some d) : x.Around d.value
  /-- The multiple that is tried first is at most half a step away. -/
  exists_near : ∃ a : ℕ, |(a : ℚ) * 10 ^ exponent - x.mantissa * 2 ^ x.power| ≤ 10 ^ exponent / 2 ∧
    (x.Around (a * 10 ^ exponent) → found.isSome = true)

theorem readsBackAt (hpos : 0 < x.mantissa) (exponent : ℤ) :
    ReadsBackAt x exponent (readBackAt x.mantissa x.power x.reachBelow exponent) := by
  obtain ⟨c, hc, hstep, hunit⟩ := exists_scale x.power exponent
  unfold readBackAt
  generalize scaled 1 1 (-(x.power - 2)) = units at *
  generalize (if 0 ≤ exponent then (10 ^ exponent.toNat, 1) else (1, 10 ^ (-exponent).toNat) : ℕ × ℕ) =
    tens at *
  dsimp -zeta only
  extract_lets step unit value low high inside lower upper first second
  have hinside (a : ℕ) : inside a = true ↔ x.Around (a * 10 ^ exponent) :=
    around_iff hc hstep hunit hpos a
  have hnear : |(first : ℚ) * 10 ^ exponent - x.mantissa * 2 ^ x.power| ≤ 10 ^ exponent / 2 :=
    abs_nearer_sub_le hc hstep hunit
  clear_value inside first second
  refine ⟨fun h => ?_, first, hnear, fun h => ?_⟩
  · split at h
    · next hfirst =>
      obtain rfl := Option.some.inj h
      exact (hinside first).1 hfirst
    · split at h
      · next hsecond =>
        obtain rfl := Option.some.inj h
        exact (hinside second).1 hsecond
      · exact nomatch h
  · rw [if_pos ((hinside first).2 h)]
    rfl

end ReadBack

/-! ## Seventeen digits -/

theorem lt_ten_pow_digitCount (n : ℕ) : n < 10 ^ digitCount n := by
  rw [digitCount]
  split
  · next h => rw [h]; decide
  · exact (Nat.length_toDigits_le_iff (by decide) Nat.length_toDigits_pos).1 le_rfl

theorem ten_pow_digitCount_le {n : ℕ} (h : n ≠ 0) : 10 ^ (digitCount n - 1) ≤ n := by
  rw [digitCount, if_neg h]
  by_cases hone : (Nat.toDigits 10 n).length = 1
  · rw [hone]
    exact Nat.one_le_iff_ne_zero.2 h
  · have hpos := @Nat.length_toDigits_pos 10 n
    refine not_lt.1 fun hlt => ?_
    have := (Nat.length_toDigits_le_iff (by decide) (by omega)).2 hlt
    omega

/-- The leading digit is not zero. -/
theorem ten_zpow_leadingExponent_le {num den : ℕ} (hnum : 0 < num) (hden : 0 < den) :
    (10 : ℚ) ^ leadingExponent num den ≤ num / den := by
  have hd : (0 : ℚ) < den := Nat.cast_pos.2 hden
  have hn : (0 : ℚ) < num := Nat.cast_pos.2 hnum
  rw [leadingExponent]
  split
  · next hle =>
    have hquotient : num / den ≠ 0 := (Nat.div_pos hle hden).ne'
    have hcount : 1 ≤ digitCount (num / den) := by
      rw [digitCount, if_neg hquotient]
      exact Nat.length_toDigits_pos
    have hpow := ten_pow_digitCount_le hquotient
    rw [Nat.le_div_iff_mul_le hden] at hpow
    rw [show (digitCount (num / den) : ℤ) - 1 = ((digitCount (num / den) - 1 : ℕ) : ℤ) by omega, zpow_natCast,
      le_div_iff₀ hd]
    exact_mod_cast hpow
  · next hlt =>
    have hpow := lt_ten_pow_digitCount ((den - 1) / num)
    rw [Nat.div_lt_iff_lt_mul hnum] at hpow
    have hle : den ≤ 10 ^ digitCount ((den - 1) / num) * num := by omega
    rw [zpow_neg, zpow_natCast, inv_eq_one_div, div_le_div_iff₀ (by positivity) hd, one_mul, mul_comm]
    exact_mod_cast hle

/-- With seventeen digits a step is too short to leave the interval. -/
theorem around_of_near {x : Binary64} {q s : ℚ} (hs : 0 < s)
    (hstep : s * 10 ^ 16 ≤ x.mantissa * 2 ^ x.power)
    (hnear : |q - x.mantissa * 2 ^ x.power| ≤ s / 2) : x.Around q := by
  set u : ℚ := 2 ^ (x.power - 2) with hu
  have hu0 : 0 < u := by positivity
  rw [units_eq, ← hu] at hstep hnear
  have hmantissa : (x.mantissa : ℚ) < 2 ^ 53 := by exact_mod_cast x.mantissa_lt
  have hhalf : s / 2 < 2 * u := by nlinarith
  have hreach : s / 2 < x.reachBelow * u := by
    rw [reachBelow]
    split
    · next hleast =>
      simp only [Bool.and_eq_true, decide_eq_true_eq] at hleast
      have hm : x.mantissa = 2 ^ 52 := by
        rw [mantissa, if_neg (by omega), hleast.1, zero_add]
      rw [hm] at hstep
      push_cast at hstep ⊢
      linarith
    · push_cast
      exact hhalf
  obtain ⟨hlo, hhi⟩ := abs_le.1 hnear
  have hbelow : (4 * x.mantissa - x.reachBelow) * u < q := by linarith
  have habove : q < (4 * x.mantissa + 2) * u := by linarith
  exact ⟨hbelow.le, habove.le, fun _ => ⟨hbelow, habove⟩⟩

theorem around_shortestFrom {x : Binary64} (hpos : 0 < x.mantissa) {lead : ℤ}
    (hlead : (10 : ℚ) ^ lead ≤ x.mantissa * 2 ^ x.power) (tries : ℕ) :
    x.Around (shortestFrom x.mantissa x.power x.reachBelow lead (tries + 1)).value := by
  induction tries with
  | zero =>
    have hfound := readsBackAt hpos (lead - 16)
    obtain ⟨a, hnear, hsome⟩ := hfound.exists_near
    have hstep : (10 : ℚ) ^ (lead - 16) * 10 ^ 16 ≤ x.mantissa * 2 ^ x.power := by
      rwa [zpow_sub₀ (by norm_num),
        show (16 : ℤ) = (16 : ℕ) from rfl, zpow_natCast, div_mul_cancel₀ _ (by norm_num)]
    obtain ⟨d, hd⟩ := Option.isSome_iff_exists.1 (hsome (around_of_near (by positivity) hstep hnear))
    rw [shortestFrom, show lead - ((16 - 0 : ℕ) : ℤ) = lead - 16 from rfl, hd]
    exact hfound.around hd
  | succ tries ih =>
    rw [shortestFrom]
    split
    · next d hd => exact (readsBackAt hpos _).around hd
    · exact ih

/-- Zeros at the end of the digits are factors of ten. -/
theorem Decimal.value_reduced (d : Decimal) : d.reduced.value = d.value := by
  obtain ⟨digits, exponent⟩ := d
  rw [reduced]
  set zeros := (Nat.toDigits 10 digits).reverse.takeWhile (· == '0') with hzeros
  have hreplicate : zeros = List.replicate zeros.length '0' :=
    List.eq_replicate_of_mem fun c hc => by
      have hzero := List.mem_takeWhile_imp hc
      exact beq_iff_eq.1 hzero
  have hsplit : Nat.toDigits 10 digits =
      ((Nat.toDigits 10 digits).reverse.dropWhile (· == '0')).reverse ++ List.replicate zeros.length '0' := by
    rw [← List.reverse_replicate, ← hreplicate, ← List.reverse_append, List.takeWhile_append_dropWhile,
      List.reverse_reverse]
  have hdvd : 10 ^ zeros.length ∣ digits := by
    have hvalue := Number.ofDigits_toDigits digits
    rw [hsplit, List.map_append, Number.ofDigits_append, List.map_replicate, List.length_replicate] at hvalue
    have hzero : Number.ofDigits (List.replicate zeros.length ('0'.toNat - 48)) = 0 :=
      Number.ofDigits_replicate_zero _
    rw [hzero, Nat.add_zero] at hvalue
    exact ⟨_, hvalue.symm.trans (Nat.mul_comm _ _)⟩
  have hkept : ((digits / 10 ^ zeros.length : ℕ) : ℚ) * 10 ^ zeros.length = digits := by
    exact_mod_cast Nat.div_mul_cancel hdvd
  rw [value, value]
  dsimp only
  rw [zpow_add₀ (by norm_num), zpow_natCast, mul_comm ((10 : ℚ) ^ exponent), ← mul_assoc, hkept]

/-- The shortest decimal of a finite number reads back. -/
theorem around_shortest {x : Binary64} (hpos : 0 < x.mantissa) : x.Around x.shortest.value := by
  have hlead : (10 : ℚ) ^ leadingExponent (scaled x.mantissa 1 (-x.power)).1 (scaled x.mantissa 1 (-x.power)).2 ≤
      x.mantissa * 2 ^ x.power := by
    obtain ⟨hden, hvalue⟩ := scaled_eq x.mantissa one_pos (-x.power)
    rw [Nat.cast_one, div_one, zpow_neg, div_inv_eq_mul] at hvalue
    have hnum : 0 < (scaled x.mantissa 1 (-x.power)).1 := by
      have hne : (x.mantissa : ℚ) * 2 ^ x.power ≠ 0 := by positivity
      rw [← hvalue] at hne
      exact Nat.cast_pos.1
        (lt_of_le_of_ne (Nat.cast_nonneg _) (Ne.symm fun hzero => hne (by rw [hzero, zero_div])))
    rw [← hvalue]
    exact ten_zpow_leadingExponent_le hnum hden
  rw [shortest, Decimal.value_reduced]
  exact around_shortestFrom hpos hlead 16

/-! ## Reading -/

theorem two_zpow_lt_ten_zpow {n : ℤ} (hn : 0 < n) : (2 : ℚ) ^ (3 * n) < 10 ^ n := by
  rw [zpow_mul]
  exact zpow_lt_zpow_left₀ hn (by norm_num) (by norm_num)

/-- Quotients around a finite number are far from what is not looked at any more. -/
theorem Around.bounds {x : Binary64} (hpos : 0 < x.mantissa) (hfinite : x.isFinite = true) {q : ℚ}
    (h : x.Around q) : (10 : ℚ) ^ (-400 : ℤ) < q ∧ q < 10 ^ (400 : ℤ) := by
  have hu : (0 : ℚ) < 2 ^ (x.power - 2) := by positivity
  have hreach : (x.reachBelow : ℚ) ≤ 2 := by exact_mod_cast x.reachBelow_le
  have hone : (1 : ℚ) ≤ x.mantissa := by exact_mod_cast hpos
  have hmantissa : (x.mantissa : ℚ) < 2 ^ 53 := by exact_mod_cast x.mantissa_lt
  have hpower := power_le hfinite
  have hleast := x.power_ge
  have hblock : (2 : ℚ) ^ (3 * 400 : ℤ) < 10 ^ (400 : ℤ) := two_zpow_lt_ten_zpow (by decide)
  rw [show (3 * 400 : ℤ) = 1200 by norm_num] at hblock
  constructor
  · calc (10 : ℚ) ^ (-400 : ℤ) < 2 ^ (-1200 : ℤ) := by
          rw [zpow_neg, zpow_neg]
          exact inv_strictAnti₀ (by positivity) hblock
      _ ≤ 2 ^ (x.power - 2) := zpow_le_zpow_right₀ one_le_two (by omega)
      _ ≤ (4 * x.mantissa - x.reachBelow) * 2 ^ (x.power - 2) := by nlinarith
      _ ≤ q := h.ge
  · have hmantissa' : (4 * x.mantissa + 2 : ℚ) ≤ 2 ^ (56 : ℤ) := by
      rw [show (2 : ℚ) ^ (56 : ℤ) = 8 * 2 ^ 53 by norm_num]
      linarith
    calc q ≤ (4 * x.mantissa + 2) * 2 ^ (x.power - 2) := h.le
      _ ≤ 2 ^ (56 : ℤ) * 2 ^ (x.power - 2) := by gcongr
      _ ≤ 2 ^ (1200 : ℤ) := by
          rw [← zpow_add₀ two_ne_zero]
          exact zpow_le_zpow_right₀ one_le_two (by omega)
      _ < 10 ^ (400 : ℤ) := hblock

/-- The number of digits gives a decimal to within a factor of ten. -/
theorem decimal_mem {digits : ℕ} (hdigits : digits ≠ 0) (exponent : ℤ) :
    (10 : ℚ) ^ (digitCount digits + exponent - 1) ≤ digits * 10 ^ exponent ∧
      digits * 10 ^ exponent < (10 : ℚ) ^ (digitCount digits + exponent) := by
  have hten : (0 : ℚ) < 10 ^ exponent := by positivity
  have hcount : 1 ≤ digitCount digits := by
    rw [digitCount, if_neg hdigits]
    exact Nat.length_toDigits_pos
  constructor
  · rw [show digitCount digits + exponent - 1 = ((digitCount digits - 1 : ℕ) : ℤ) + exponent by omega,
      zpow_add₀ (by norm_num), zpow_natCast]
    gcongr
    exact_mod_cast ten_pow_digitCount_le hdigits
  · rw [zpow_add₀ (by norm_num), zpow_natCast]
    gcongr
    exact_mod_cast lt_ten_pow_digitCount digits

/-- A decimal around a finite number is read as this number. -/
theorem ofDecimal_eq_of_around {x : Binary64} (hpos : 0 < x.mantissa) (hfinite : x.isFinite = true)
    {digits : ℕ} {exponent : ℤ} (h : x.Around (digits * 10 ^ exponent)) (negative : Bool) :
    ofDecimal negative digits exponent = ofMagnitude negative x.magnitude := by
  obtain ⟨hbelow, habove⟩ := h.bounds hpos hfinite
  have hdigits : digits ≠ 0 := by
    rintro rfl
    rw [Nat.cast_zero, zero_mul] at hbelow
    exact absurd hbelow (not_lt.2 (by positivity))
  obtain ⟨hlo, hhi⟩ := decimal_mem hdigits exponent
  have hten : (1 : ℚ) < 10 := by norm_num
  have hlow : -400 < digitCount digits + exponent := (zpow_lt_zpow_iff_right₀ hten).1 (hbelow.trans hhi)
  have hhigh : digitCount digits + exponent - 1 < 400 :=
    (zpow_lt_zpow_iff_right₀ hten).1 (hlo.trans_lt habove)
  rw [ofDecimal, if_neg (by simp [hdigits, hlow.le]), if_neg (by omega)]
  split
  · next hexponent =>
    rw [zpow_of_nonneg 10 hexponent] at h
    refine ofRatio_eq_of_around hfinite one_pos ?_ negative
    push_cast
    rwa [div_one]
  · next hexponent =>
    rw [zpow_of_not_nonneg 10 hexponent, ← div_eq_mul_inv] at h
    refine ofRatio_eq_of_around hfinite (by positivity) ?_ negative
    push_cast
    exact h

end CodeReview.Binary64
