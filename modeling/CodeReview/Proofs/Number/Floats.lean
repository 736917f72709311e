import CodeReview.Proofs.Number.Packing

/-!
# Arithmetic on floating-point numbers

The operations of `Float` in exact rationals. A finite number stands for one (`toRat`), and a rational is
rounded to a number (`ofRat`), the one that stands for it if there is one (`ofRat_toRat`).

* `ofFloat_add` : a sum is the exact one, rounded. It is infinite from the middle behind the largest number on
  (`isFinite_add_iff`), and never loses its sign (`nonneg_add_iff`): what is not exactly zero is at least one
  of the smallest units, of which every number is a multiple.
* `nonneg_add`, `nonneg_div`, `isFinite_mul` : what is not below zero stays so.
-/

namespace CodeReview.Binary64

open Float.Model Float.Model.UnpackedFloat

/-! ## Values -/

/-- What a finite number stands for. -/
def toRat (x : Binary64) : ℚ := (if x.negative then -1 else 1) * (x.mantissa * 2 ^ x.power)

/-- The number nearest to a rational. -/
def ofRat (q : ℚ) : Binary64 := ofRatio (q < 0) q.num.natAbs q.den

section Values

variable {x : Binary64} {q : ℚ}

theorem isZero_iff : x.isZero = true ↔ x.mantissa = 0 := by
  have hmagnitude := x.magnitude_eq
  rw [isZero, beq_iff_eq, hmagnitude]
  constructor
  · omega
  · intro h
    have hleast : x.power = -1074 := by
      by_contra hne
      have := (mantissa_of_power_ne hne).1
      omega
    rw [h, hleast]
    rfl

theorem toRat_eq_zero_iff : x.toRat = 0 ↔ x.isZero = true := by
  have hu : (2 : ℚ) ^ x.power ≠ 0 := by positivity
  rw [isZero_iff, toRat, mul_eq_zero, mul_eq_zero, Nat.cast_eq_zero]
  constructor
  · rintro (h | h | h)
    · split at h <;> simp at h
    · exact h
    · exact absurd h hu
  · exact fun h => .inr (.inl h)

/-- A number is in the middle of what is rounded to it. -/
theorem around_self (x : Binary64) : x.Around (x.mantissa * 2 ^ x.power) := by
  have hu : (0 : ℚ) < 2 ^ (x.power - 2) := by positivity
  have hreach : (0 : ℚ) < x.reachBelow := by
    rw [reachBelow]
    split <;> norm_num
  rw [units_eq]
  refine ⟨?_, ?_, fun _ => ⟨?_, ?_⟩⟩ <;> nlinarith

/-- The two parts of a rational apart from its sign. -/
theorem abs_eq_natAbs_div_den (q : ℚ) : |q| = (q.num.natAbs : ℚ) / q.den := by
  rw [Nat.cast_natAbs, Int.cast_abs]
  conv_lhs => rw [← Rat.num_div_den q, abs_div, Nat.abs_cast]

theorem abs_toRat (x : Binary64) : |x.toRat| = x.mantissa * 2 ^ x.power := by
  have hnonneg : (0 : ℚ) ≤ x.mantissa * 2 ^ x.power := by positivity
  rw [toRat, abs_mul, abs_of_nonneg hnonneg]
  split <;> simp

theorem toRat_neg_iff (hne : x.isZero = false) : x.toRat < 0 ↔ x.negative = true := by
  have hpos : (0 : ℚ) < x.mantissa * 2 ^ x.power := by
    rw [← abs_toRat, abs_pos, Ne, toRat_eq_zero_iff, hne]
    exact Bool.false_ne_true
  rw [toRat]
  split
  · next h => exact iff_of_true (by linarith) h
  · next h => exact iff_of_false (by linarith) h

theorem ofRat_toRat (hfinite : x.isFinite = true) (hne : x.isZero = false) : ofRat x.toRat = x := by
  have haround : x.Around (x.toRat.num.natAbs / x.toRat.den) := by
    rw [← abs_eq_natAbs_div_den, abs_toRat]
    exact x.around_self
  have hsign : decide (x.toRat < 0) = x.negative := by
    rw [Bool.eq_iff_iff, decide_eq_true_eq, toRat_neg_iff hne]
  rw [ofRat, ofRatio_eq_of_around hfinite x.toRat.den_pos haround, hsign, ofMagnitude_magnitude]

end Values

/-! ## Rounded values -/

section OfRat

variable {q : ℚ}

theorem isFinite_ofRat (q : ℚ) : (ofRat q).isFinite = true ↔ |q| < (2 ^ 54 - 1) * 2 ^ (970 : ℤ) := by
  rw [ofRat, isFinite_ofRatio _ _ q.den_pos, abs_eq_natAbs_div_den]

theorem negative_ofRat (q : ℚ) : (ofRat q).negative = decide (q < 0) := by
  obtain ⟨p, m, -, -, heq⟩ := exists_ofRatio_eq (decide (q < 0)) q.num.natAbs q.den_pos
  rw [ofRat, heq]
  exact negative_ofMagnitude (lt_of_le_of_lt (min_le_right _ _) (by decide))

theorem isNaN_of_magnitude_le {x : Binary64} (h : x.magnitude ≤ infiniteMagnitude) : x.isNaN = false := by
  have hfield : x.field = x.magnitude / 2 ^ 52 := rfl
  have hfraction : x.fraction = x.magnitude % 2 ^ 52 := rfl
  rw [infiniteMagnitude] at h
  rw [isNaN, Bool.and_eq_false_iff, beq_eq_false_iff_ne, bne_eq_false_iff_eq]
  omega

theorem isNaN_ofMagnitude (negative : Bool) {magnitude : ℕ} (h : magnitude ≤ infiniteMagnitude) :
    (ofMagnitude negative magnitude).isNaN = false := by
  refine isNaN_of_magnitude_le ?_
  rwa [magnitude_ofMagnitude (lt_of_le_of_lt h (by decide))]

theorem isNaN_ofRatio (negative : Bool) (num : ℕ) {den : ℕ} (hden : 0 < den) :
    (ofRatio negative num den).isNaN = false := by
  obtain ⟨p, m, -, -, heq⟩ := exists_ofRatio_eq negative num hden
  rw [heq]
  exact isNaN_ofMagnitude negative (min_le_right _ _)

theorem isNaN_ofRat (q : ℚ) : (ofRat q).isNaN = false := isNaN_ofRatio _ _ q.den_pos

/-- A decimal is read as a number. -/
theorem isNaN_ofDecimal (negative : Bool) (digits : ℕ) (exponent : ℤ) :
    (ofDecimal negative digits exponent).isNaN = false := by
  rw [ofDecimal]
  split
  · exact isNaN_ofMagnitude negative (Nat.zero_le _)
  · split
    · exact isNaN_ofMagnitude negative le_rfl
    · split
      · exact isNaN_ofRatio negative _ one_pos
      · exact isNaN_ofRatio negative _ (Nat.pow_pos (by decide))

/-- What is no smaller than the smallest number is not rounded to zero. -/
theorem isZero_ofRat (h : 2 ^ (-1074 : ℤ) ≤ |q|) : (ofRat q).isZero = false := by
  obtain ⟨p, m, hfits, hm, heq⟩ := exists_ofRatio_eq (decide (q < 0)) q.num.natAbs q.den_pos
  rw [← abs_eq_natAbs_div_den] at hfits hm
  have hpos : 0 < m := by
    by_cases hp : p = -1074
    · have hone : 1 ≤ |q| / 2 ^ p := by rwa [hp, one_le_div (by positivity)]
      have hhalf : (0 : ℚ) < m := by linarith [(abs_le.1 hm.dist_le).2]
      exact Nat.cast_pos.1 hhalf
    · exact Nat.lt_of_lt_of_le (by decide) ((hm.le_of_fits hfits).2 hp)
  have hmagnitude : 0 < min ((p + 1074).toNat * 2 ^ 52 + m) infiniteMagnitude :=
    lt_min (Nat.lt_of_lt_of_le hpos (Nat.le_add_left _ _)) (by decide)
  rw [ofRat, heq, isZero, magnitude_ofMagnitude (lt_of_le_of_lt (min_le_right _ _) (by decide)),
    beq_eq_false_iff_ne]
  exact hmagnitude.ne'

/-- Every number is a whole number of the smallest units. -/
theorem exists_units (x : Binary64) : ∃ n : ℤ, x.toRat = n * 2 ^ (-1074 : ℤ) := by
  refine ⟨(if x.negative then -1 else 1) * (x.mantissa * 2 ^ (x.power + 1074).toNat), ?_⟩
  have hunits : (2 : ℚ) ^ (x.power + 1074).toNat * 2 ^ (-1074 : ℤ) = 2 ^ x.power := by
    have := x.power_ge
    rw [← zpow_natCast, Int.toNat_of_nonneg (by omega), ← zpow_add₀ two_ne_zero, add_neg_cancel_right]
  simp only [toRat, Int.cast_mul, Int.cast_pow, Int.cast_ite, Int.cast_neg, Int.cast_one, Int.cast_natCast,
    Int.cast_ofNat, mul_assoc, hunits]

end OfRat

/-! ## Sums -/

section Sums

variable {a b : Float}

theorem stands_ofFloat (a : Float) : (ofFloat a).Stands a.toModel.unpack := stands _

theorem magnitude_of_isInfinite {x : Binary64} (h : x.isInfinite = true) : x.magnitude = infiniteMagnitude := by
  have hparts : x.magnitude = x.field * 2 ^ 52 + x.fraction := (Nat.div_add_mod' _ _).symm
  rw [isInfinite, Bool.and_eq_true, beq_iff_eq, beq_iff_eq] at h
  rw [hparts, h.1, h.2]
  rfl

theorem isZero_of_isInfinite {x : Binary64} (h : x.isInfinite = true) : x.isZero = false := by
  rw [isZero, magnitude_of_isInfinite h]
  rfl

theorem infinity_negative {x : Binary64} (h : x.isInfinite = true) : infinity x.negative = x := by
  rw [infinity, ← magnitude_of_isInfinite h, ofMagnitude_magnitude]

/-- A number passes through `Float` as it is; only one that is not a number loses its bits. -/
theorem packed_unpack {x : Binary64} (h : x.isNaN = false) {result : UnpackedFloat}
    (hstands : x.Stands result) : packed result = x := by
  cases hstands with
  | nan hnan => exact absurd (hnan.symm.trans h) Bool.noConfusion
  | infinite hinfinite => rw [packed_infinity, infinity_negative hinfinite]
  | zero hzero =>
    rw [isZero, beq_iff_eq] at hzero
    rw [packed_zero, ← hzero, ofMagnitude_magnitude]
  | finite hfinite hpos =>
    have hmax := (isFinite_iff x).1 hfinite
    have hbits : x.power = -1074 ∨ 2 ^ 52 ≤ x.mantissa :=
      or_iff_not_imp_left.2 fun hne => (mantissa_of_power_ne hne).1
    rw [packed_finite x.negative hpos x.mantissa_lt x.power_ge hbits, ← magnitude_eq,
      min_eq_left hmax.le, ofMagnitude_magnitude]

theorem ofFloat_toFloat {x : Binary64} (h : x.isNaN = false) : ofFloat x.toFloat = x :=
  packed_unpack h x.stands

/-- What normal form a whole number of units is brought to, it is the rounded value of it. -/
theorem packed_normalize {m e : ℤ} {q : ℚ} (hq : (m : ℚ) * 2 ^ e = q) (hne : q ≠ 0) (zero : Sign) :
    packed (UnpackedFloat.normalize Format.binary64 m e zero) = ofRat q := by
  have hu : (0 : ℚ) < 2 ^ e := by positivity
  have habs : ((m.natAbs : ℕ) : ℚ) * 2 ^ e = q.num.natAbs / q.den := by
    rw [← abs_eq_natAbs_div_den, ← hq, abs_mul, abs_of_pos hu, Nat.cast_natAbs, Int.cast_abs]
  rcases lt_trichotomy m 0 with hneg | rfl | hpos
  · have hsign : decide (q < 0) = true := by
      rw [decide_eq_true_eq, ← hq]
      exact mul_neg_of_neg_of_pos (Int.cast_lt_zero.2 hneg) hu
    have hnat : (-m).toNat = m.natAbs := by omega
    rw [UnpackedFloat.normalize, Int.compare_eq_lt.2 hneg, ofRat, hsign]
    dsimp only
    rw [hnat]
    exact packed_round true (by omega) q.den_pos habs
  · exact absurd (by rw [← hq, Int.cast_zero, zero_mul]) hne
  · have hsign : decide (q < 0) = false := by
      rw [decide_eq_false_iff_not, ← hq, not_lt]
      exact (mul_pos (Int.cast_pos.2 hpos) hu).le
    have hnat : m.toNat = m.natAbs := by omega
    rw [UnpackedFloat.normalize, Int.compare_eq_gt.2 hpos, ofRat, hsign]
    dsimp only
    rw [hnat]
    exact packed_round false (by omega) q.den_pos habs

/-- A mantissa with its sign, in units that are no larger than its own. -/
theorem apply_decreaseExponent (x : Binary64) {e : ℤ} (he : e ≤ x.power) :
    (((signOf x.negative).apply (decreaseExponent x.mantissa x.power e).1 : ℤ) : ℚ) * 2 ^ e = x.toRat := by
  have hunits : (2 : ℚ) ^ (x.power - e).toNat * 2 ^ e = 2 ^ x.power := by
    rw [← zpow_natCast, ← zpow_add₀ two_ne_zero, Int.toNat_of_nonneg (Int.sub_nonneg.2 he), sub_add_cancel]
  have hshift : ((x.mantissa <<< (x.power - e).toNat : ℕ) : ℚ) * 2 ^ e = x.mantissa * 2 ^ x.power := by
    rw [Nat.shiftLeft_eq, Nat.cast_mul, Nat.cast_pow, Nat.cast_ofNat, mul_assoc, hunits]
  rw [toRat, ← hshift]
  cases x.negative with
  | false =>
    rw [if_neg Bool.false_ne_true, one_mul]
    exact congrArg (· * _) (Int.cast_natCast _)
  | true =>
    rw [if_pos rfl, neg_one_mul, ← neg_mul]
    refine congrArg (· * _) ?_
    exact (Int.cast_neg _).trans (congrArg _ (Int.cast_natCast _))

theorem isNaN_of_isFinite {x : Binary64} (h : x.isFinite = true) : x.isNaN = false := by
  rw [isFinite, decide_eq_true_eq] at h
  simp [isNaN, h.ne]

/-- What is neither finite nor a not-a-number is an infinity. -/
theorem isInfinite_of_not {x : Binary64} (hfinite : ¬x.isFinite = true) (hnan : ¬x.isNaN = true) :
    x.isInfinite = true := by
  have hfield : x.field = 2047 := by
    have hlt := x.magnitude_lt
    rw [isFinite, decide_eq_true_eq] at hfinite
    rw [field] at hfinite ⊢
    omega
  simpa [isNaN, isInfinite, hfield] using hnan

/-- What stands for a finite number is a zero, or the number itself. -/
theorem Stands.of_isFinite {x : Binary64} {u : UnpackedFloat}
    (h : x.Stands u) (hfinite : x.isFinite = true) :
    (x.isZero = true ∧ u = .zero (signOf x.negative)) ∨
      ∃ hpos, u = .finite (signOf x.negative) x.mantissa x.power hpos := by
  rw [isFinite, decide_eq_true_eq] at hfinite
  cases h with
  | nan h => simp [isNaN, hfinite.ne] at h
  | infinite h => simp [isInfinite, hfinite.ne] at h
  | zero h => exact .inl ⟨h, rfl⟩
  | finite _ hpos => exact .inr ⟨hpos, rfl⟩

/-- Two numbers are added in the smaller units of the two. -/
theorem exists_add_eq_normalize {x y : Binary64} (hx : 0 < x.mantissa) (hy : 0 < y.mantissa) :
    ∃ (m : ℤ) (e : ℤ), (m : ℚ) * 2 ^ e = x.toRat + y.toRat ∧
      UnpackedFloat.add Format.binary64 (.finite (signOf x.negative) x.mantissa x.power hx)
        (.finite (signOf y.negative) y.mantissa y.power hy) = UnpackedFloat.normalize Format.binary64 m e .positive := by
  refine ⟨_, _, ?_, rfl⟩
  rw [Int.cast_add, add_mul]
  exact congrArg₂ (· + ·) (apply_decreaseExponent x (min_le_left _ _))
    (apply_decreaseExponent y (min_le_right _ _))

/-- The sum of finite numbers is the exact one, rounded. -/
theorem ofFloat_add (ha : (ofFloat a).isFinite = true) (hb : (ofFloat b).isFinite = true)
    (hne : (ofFloat a).toRat + (ofFloat b).toRat ≠ 0) :
    ofFloat (a + b) = ofRat ((ofFloat a).toRat + (ofFloat b).toRat) := by
  have hpack : ofFloat (a + b) =
      packed (UnpackedFloat.add Format.binary64 a.toModel.unpack b.toModel.unpack) := rfl
  have hnonzero {x : Binary64} (h : x.toRat ≠ 0) : x.isZero = false :=
    Bool.eq_false_iff.2 (mt toRat_eq_zero_iff.2 h)
  have hself {x : Binary64} (h : x.isFinite = true) {u} (hu : x.Stands u) : packed u = x :=
    packed_unpack (isNaN_of_isFinite h) hu
  rcases (stands_ofFloat a).of_isFinite ha with ⟨hzero, hua⟩ | ⟨hpos, hua⟩
  · rw [toRat_eq_zero_iff.2 hzero, zero_add] at hne ⊢
    rw [ofRat_toRat hb (hnonzero hne), ← hself hb (stands_ofFloat b), hpack, hua]
    rcases (stands_ofFloat b).of_isFinite hb with ⟨hzero, -⟩ | ⟨_, hub⟩
    · exact absurd (toRat_eq_zero_iff.2 hzero) hne
    · rw [hub]
      rfl
  · rcases (stands_ofFloat b).of_isFinite hb with ⟨hzero, hub⟩ | ⟨hpos', hub⟩
    · rw [toRat_eq_zero_iff.2 hzero, add_zero] at hne ⊢
      rw [ofRat_toRat ha (hnonzero hne), ← hself ha (stands_ofFloat a), hpack, hub, hua]
      rfl
    · rw [hpack, hua, hub]
      obtain ⟨m, e, hm, hsum⟩ := exists_add_eq_normalize hpos hpos'
      rw [hsum, packed_normalize hm hne]

theorem isZero_ofFloat_add (ha : (ofFloat a).isFinite = true) (hb : (ofFloat b).isFinite = true)
    (hq : (ofFloat a).toRat + (ofFloat b).toRat = 0) : (ofFloat (a + b)).isZero = true := by
  have hpack : ofFloat (a + b) =
      packed (UnpackedFloat.add Format.binary64 a.toModel.unpack b.toModel.unpack) := rfl
  have hnonzero {x : Binary64} (hpos : 0 < x.mantissa) : x.toRat ≠ 0 := by
    rw [Ne, toRat_eq_zero_iff, isZero_iff]
    exact hpos.ne'
  rw [hpack]
  rcases (stands_ofFloat a).of_isFinite ha with ⟨hzero, hua⟩ | ⟨hpos, hua⟩ <;>
    rcases (stands_ofFloat b).of_isFinite hb with ⟨hzero', hub⟩ | ⟨hpos', hub⟩ <;> rw [hua, hub]
  · cases (ofFloat a).negative <;> cases (ofFloat b).negative <;> rfl
  · rw [toRat_eq_zero_iff.2 hzero, zero_add] at hq
    exact absurd hq (hnonzero hpos')
  · rw [toRat_eq_zero_iff.2 hzero', add_zero] at hq
    exact absurd hq (hnonzero hpos)
  · obtain ⟨m, e, hm, hsum⟩ := exists_add_eq_normalize hpos hpos'
    rw [hq] at hm
    obtain rfl := Int.cast_eq_zero.1 ((mul_eq_zero.1 hm).resolve_right (by positivity))
    rw [hsum]
    rfl

end Sums

/-! ## Comparisons -/

theorem isFinite_of_isZero {x : Binary64} (h : x.isZero = true) : x.isFinite = true := by
  rw [isZero, beq_iff_eq] at h
  rw [isFinite_iff, h]
  decide

theorem Stands.isFinite_eq {x : Binary64} {u : UnpackedFloat} (h : x.Stands u) :
    x.isFinite = u.isFinite := by
  cases h with
  | nan h =>
    rw [isNaN, Bool.and_eq_true, beq_iff_eq] at h
    rw [Binary64.isFinite, h.1]
    rfl
  | infinite h =>
    rw [isInfinite, Bool.and_eq_true, beq_iff_eq] at h
    rw [Binary64.isFinite, h.1]
    rfl
  | zero h => exact isFinite_of_isZero h
  | finite h => exact h

theorem isFinite_ofFloat (a : Float) : (ofFloat a).isFinite = a.isFinite := (stands_ofFloat a).isFinite_eq

theorem isFinite_toFloat (x : Binary64) : x.toFloat.isFinite = x.isFinite := by
  cases hfinite : x.isFinite with
  | true => rw [← isFinite_ofFloat, ofFloat_toFloat (isNaN_of_isFinite hfinite), hfinite]
  | false =>
    have hpack : ofFloat x.toFloat = packed (UnpackedFloat.unpack Format.binary64 x.bits.toBitVec) := rfl
    have hstands := x.stands
    rw [← isFinite_ofFloat, hpack]
    generalize UnpackedFloat.unpack Format.binary64 x.bits.toBitVec = u at hstands ⊢
    cases hstands with
    | nan => decide
    | infinite => cases x.negative <;> decide
    | zero h => exact absurd ((isFinite_of_isZero h).symm.trans hfinite) Bool.noConfusion
    | finite h => exact absurd (h.symm.trans hfinite) Bool.noConfusion

theorem unpack_zero : (0 : Float).toModel.unpack = .zero .positive := rfl

/-- The sign counts unless the number is zero. -/
theorem nonneg_iff (a : Float) : 0 ≤ a ↔
    (ofFloat a).isNaN = false ∧ ((ofFloat a).negative = true → (ofFloat a).isZero = true) := by
  have hle : 0 ≤ a ↔ (UnpackedFloat.compare (.zero .positive) a.toModel.unpack).any (·.isLE) = true := by
    rw [← unpack_zero]
    exact decide_eq_true_iff
  rw [hle]
  have h := stands_ofFloat a
  generalize a.toModel.unpack = u at h ⊢
  generalize ofFloat a = x at h ⊢
  cases h with
  | nan h => simp [h, UnpackedFloat.compare]
  | infinite h =>
    have hzero := isZero_of_isInfinite h
    have hnan : x.isNaN = false := by
      rw [isInfinite, Bool.and_eq_true, beq_iff_eq, beq_iff_eq] at h
      simp [isNaN, h.2]
    rw [hnan, hzero]
    cases x.negative <;> decide
  | zero h => simp [h, isNaN_of_isFinite (isFinite_of_isZero h), UnpackedFloat.compare]
  | finite h hpos =>
    have hzero : x.isZero = false := Bool.eq_false_iff.2 (mt isZero_iff.1 hpos.ne')
    rw [isNaN_of_isFinite h, hzero]
    cases x.negative <;> simp [signOf, UnpackedFloat.compare]

theorem nonneg_iff_of_isFinite {a : Float} (h : (ofFloat a).isFinite = true) :
    0 ≤ a ↔ 0 ≤ (ofFloat a).toRat := by
  rw [nonneg_iff, isNaN_of_isFinite h, ← not_lt]
  cases hzero : (ofFloat a).isZero with
  | true => simp [toRat_eq_zero_iff.2 hzero]
  | false => simp [toRat_neg_iff hzero]

/-- Of two numbers the one of the smaller power is smaller, or else the one of the smaller mantissa: the
mantissas have all their bits, unless the power is the least. -/
theorem units_le_of_compare {x y : Binary64}
    (h : ((compare x.power y.power).then (compare x.mantissa y.mantissa)).isLE = true) :
    (x.mantissa : ℚ) * 2 ^ x.power ≤ y.mantissa * 2 ^ y.power := by
  rcases Int.lt_trichotomy x.power y.power with hpower | hpower | hpower
  · have hx : (x.mantissa : ℚ) ≤ 2 ^ 53 := by exact_mod_cast x.mantissa_lt.le
    have hy : (2 : ℚ) ^ 52 ≤ y.mantissa := by
      have := x.power_ge
      exact_mod_cast (mantissa_of_power_ne (show y.power ≠ -1074 by omega)).1
    calc (x.mantissa : ℚ) * 2 ^ x.power ≤ 2 ^ 53 * 2 ^ (y.power - 1) := by
          gcongr
          · exact one_le_two
          · omega
      _ = 2 ^ 52 * 2 ^ y.power := by
          rw [zpow_sub_one₀ two_ne_zero]
          ring
      _ ≤ y.mantissa * 2 ^ y.power := by gcongr
  · rw [Int.compare_eq_eq.2 hpower] at h
    have hmantissa : x.mantissa ≤ y.mantissa := Nat.isLE_compare.1 h
    rw [hpower]
    gcongr
  · rw [Int.compare_eq_gt.2 hpower] at h
    exact absurd h Bool.false_ne_true

theorem toRat_eq {x : Binary64} (h : x.negative = false) : x.toRat = x.mantissa * 2 ^ x.power := by
  rw [toRat, h, if_neg Bool.false_ne_true, one_mul]

/-- What stands for a number that is not below zero. -/
inductive StandsNonneg (x : Binary64) : UnpackedFloat → Prop
  | infinite : StandsNonneg x (.infinity .positive)
  | zero (sign : Sign) (hfinite : x.isFinite = true) (hx : x.toRat = 0) : StandsNonneg x (.zero sign)
  | finite (hpos : 0 < x.mantissa) (hfinite : x.isFinite = true) (hx : x.toRat = x.mantissa * 2 ^ x.power) :
    StandsNonneg x (.finite .positive x.mantissa x.power hpos)

theorem standsNonneg {a : Float} (h : 0 ≤ a) : StandsNonneg (ofFloat a) a.toModel.unpack := by
  obtain ⟨hnan, hsign⟩ := (nonneg_iff a).1 h
  have hpositive (hne : (ofFloat a).isZero = false) : (ofFloat a).negative = false :=
    Bool.eq_false_iff.2 fun hneg => Bool.false_ne_true (hne.symm.trans (hsign hneg))
  have hstands := stands_ofFloat a
  generalize a.toModel.unpack = u at hstands ⊢
  generalize ofFloat a = x at *
  cases hstands with
  | nan h => exact absurd (h.symm.trans hnan) Bool.noConfusion
  | infinite h =>
    rw [hpositive (isZero_of_isInfinite h)]
    exact .infinite
  | zero h => exact .zero _ (isFinite_of_isZero h) (toRat_eq_zero_iff.2 h)
  | finite h hpos =>
    have hx := hpositive (Bool.eq_false_iff.2 (mt isZero_iff.1 hpos.ne'))
    have hfinite := StandsNonneg.finite hpos h (toRat_eq hx)
    rw [hx]
    exact hfinite

/-- Numbers from zero up to a finite one are finite, and are in order. -/
theorem le_of_nonneg {a b : Float} (ha : 0 ≤ a) (hb : 0 ≤ b) (hab : a ≤ b)
    (hfinite : (ofFloat b).isFinite = true) :
    (ofFloat a).isFinite = true ∧ (ofFloat a).toRat ≤ (ofFloat b).toRat := by
  have hle : (UnpackedFloat.compare a.toModel.unpack b.toModel.unpack).any (·.isLE) = true :=
    decide_eq_true_iff.1 hab
  have hinfinite : b.toModel.unpack ≠ .infinity .positive := by
    rw [(stands_ofFloat b).isFinite_eq] at hfinite
    exact fun h => Bool.false_ne_true ((congrArg UnpackedFloat.isFinite h).symm.trans hfinite)
  have hsa := standsNonneg ha
  have hsb := standsNonneg hb
  generalize a.toModel.unpack = u at hsa hle
  generalize b.toModel.unpack = v at hsb hle hinfinite
  generalize ofFloat a = x at *
  generalize ofFloat b = y at *
  cases hsb with
  | infinite => exact absurd rfl hinfinite
  | zero sign _ hy =>
    cases hsa with
    | infinite => exact absurd hle Bool.false_ne_true
    | zero _ hx hzero => exact ⟨hx, by rw [hzero, hy]⟩
    | finite => exact absurd hle Bool.false_ne_true
  | finite _ _ hy =>
    cases hsa with
    | infinite => exact absurd hle Bool.false_ne_true
    | zero _ hx hzero =>
      refine ⟨hx, ?_⟩
      rw [hzero, hy]
      positivity
    | finite _ hx hvalue =>
      rw [hvalue, hy]
      exact ⟨hx, units_le_of_compare hle⟩

/-- The largest numbers are less by one of their units, or two halves of one, than the next power of two. -/
theorem abs_toRat_le {x : Binary64} (h : x.isFinite = true) : |x.toRat| ≤ (2 ^ 54 - 2) * 2 ^ (970 : ℤ) := by
  have hpower := power_le h
  have hmantissa : (x.mantissa : ℚ) ≤ 2 ^ 53 - 1 := by
    have : (x.mantissa : ℚ) + 1 ≤ 2 ^ 53 := by exact_mod_cast x.mantissa_lt
    linarith
  calc |x.toRat| = x.mantissa * 2 ^ x.power := abs_toRat x
    _ ≤ (2 ^ 53 - 1) * 2 ^ (970 + 1 : ℤ) := by
      gcongr
      · exact one_le_two
      · exact hpower
    _ = (2 ^ 54 - 2) * 2 ^ (970 : ℤ) := by
      rw [zpow_add_one₀ two_ne_zero]
      ring

theorem isFinite_of_packed_add {u v : UnpackedFloat}
    (h : (packed (UnpackedFloat.add Format.binary64 u v)).isFinite = true) : u.isFinite = true := by
  have hnan : (packed .notANumber).isFinite = false := by decide
  have hinfinite (sign : Sign) : (packed (.infinity sign)).isFinite = false := by cases sign <;> decide
  cases u with
  | notANumber => exact absurd (hnan.symm.trans h) Bool.false_ne_true
  | infinity sign =>
    cases v with
    | notANumber => exact absurd (hnan.symm.trans h) Bool.false_ne_true
    | infinity sign' => cases sign <;> cases sign' <;> exact absurd h (by decide)
    | zero => exact absurd ((hinfinite sign).symm.trans h) Bool.false_ne_true
    | finite => exact absurd ((hinfinite sign).symm.trans h) Bool.false_ne_true
  | zero => rfl
  | finite => rfl

/-- A sum with what is not finite is not finite. -/
theorem isFinite_of_add {a b : Float} (h : (a + b).isFinite = true) : a.isFinite = true := by
  rw [← isFinite_ofFloat] at h
  exact @isFinite_of_packed_add a.toModel.unpack b.toModel.unpack h

section AddFinite

variable {a b : Float} (ha : (ofFloat a).isFinite = true) (hb : (ofFloat b).isFinite = true)

include ha hb

theorem isFinite_add_iff :
    (a + b).isFinite = true ↔ |(ofFloat a).toRat + (ofFloat b).toRat| < (2 ^ 54 - 1) * 2 ^ (970 : ℤ) := by
  rw [← isFinite_ofFloat]
  by_cases hq : (ofFloat a).toRat + (ofFloat b).toRat = 0
  · rw [hq, abs_zero]
    exact iff_of_true (isFinite_of_isZero (isZero_ofFloat_add ha hb hq)) (by positivity)
  · rw [ofFloat_add ha hb hq, isFinite_ofRat]

/-- A sum that is not exact still has the sign of the exact one. -/
theorem nonneg_add_iff : 0 ≤ a + b ↔ 0 ≤ (ofFloat a).toRat + (ofFloat b).toRat := by
  by_cases hq : (ofFloat a).toRat + (ofFloat b).toRat = 0
  · have hzero := isZero_ofFloat_add ha hb hq
    rw [nonneg_iff_of_isFinite (isFinite_of_isZero hzero), toRat_eq_zero_iff.2 hzero, hq]
  · obtain ⟨m, hm⟩ := exists_units (ofFloat a)
    obtain ⟨n, hn⟩ := exists_units (ofFloat b)
    have hleast : 2 ^ (-1074 : ℤ) ≤ |(ofFloat a).toRat + (ofFloat b).toRat| := by
      rw [hm, hn, ← add_mul, ← Int.cast_add] at hq ⊢
      have hu : (0 : ℚ) < 2 ^ (-1074 : ℤ) := by positivity
      rw [abs_mul, abs_of_pos hu, ← Int.cast_abs]
      refine le_mul_of_one_le_left hu.le ?_
      exact_mod_cast Int.one_le_abs (Int.cast_ne_zero.1 (left_ne_zero_of_mul hq))
    rw [nonneg_iff, ofFloat_add ha hb hq, isNaN_ofRat, isZero_ofRat hleast, negative_ofRat, ← not_lt]
    simp

end AddFinite

/-! ## Results that are not below zero -/

theorem nonneg_of_ofMagnitude {a : Float} {magnitude : ℕ} (h : magnitude ≤ infiniteMagnitude)
    (ha : ofFloat a = ofMagnitude false magnitude) : 0 ≤ a := by
  have hlt : magnitude < 2 ^ 63 := lt_of_le_of_lt h (by decide)
  rw [nonneg_iff, ha, negative_ofMagnitude hlt]
  exact ⟨isNaN_of_magnitude_le (by rwa [magnitude_ofMagnitude hlt]), fun h => absurd h Bool.false_ne_true⟩

theorem nonneg_of_packed_infinity {a : Float} (ha : ofFloat a = packed (.infinity .positive)) : 0 ≤ a :=
  nonneg_of_ofMagnitude le_rfl (ha.trans (packed_infinity false))

theorem isZero_packed_zero (sign : Sign) : (packed (.zero sign)).isZero = true := by
  cases sign <;> decide

theorem nonneg_of_packed_zero {a : Float} {sign : Sign} (ha : ofFloat a = packed (.zero sign)) : 0 ≤ a := by
  rw [nonneg_iff, ha]
  cases sign <;> decide

theorem nonneg_of_packed_finite {a : Float} {m : ℕ} {e : ℤ} {hpos : 0 < m}
    (ha : ofFloat a = packed (.finite .positive m e hpos)) : 0 ≤ a := by
  unfold packed UnpackedFloat.pack at ha
  dsimp only at ha
  split at ha
  · exact nonneg_of_packed_infinity ha
  split at ha
  · next hsmall _ =>
    have hfield : (e + Format.binary64.exponentBias +
        Format.binary64.mantissaBitsWithoutImplicit).toNat < 2047 := by
      have : ¬ 2 ^ 11 ≤
        (e + Format.binary64.exponentBias + Format.binary64.mantissaBitsWithoutImplicit).toNat + 1 :=
        hsmall
      omega
    refine nonneg_of_ofMagnitude ?_ (ha.trans (ofBitVec_packComponents false m (by omega)))
    rw [infiniteMagnitude]
    omega
  · refine nonneg_of_ofMagnitude ?_ (ha.trans (@ofBitVec_packComponents false 0 m (by decide)))
    rw [infiniteMagnitude]
    omega

/-- Rounding keeps the sign. -/
theorem nonneg_of_packed_round {a : Float} {m : ℕ} {e : ℤ} {accuracy : Accuracy}
    (ha : ofFloat a = packed (roundWithAccuracy Format.binary64 .positive m e accuracy)) : 0 ≤ a := by
  unfold roundWithAccuracy at ha
  dsimp only at ha
  split at ha
  · exact nonneg_of_packed_zero ha
  · exact nonneg_of_packed_finite ha

/-- A number stays finite when a factor of at most one is taken of it. -/
theorem isFinite_ofRatio_mul {x y : Binary64} (hx : 0 ≤ x.toRat) (hone : x.toRat ≤ 1) (hy : 0 ≤ y.toRat)
    (hfinite : y.isFinite = true) :
    (ofRatio false (x.toRat * y.toRat).num.natAbs (x.toRat * y.toRat).den).isFinite = true := by
  rw [isFinite_ofRatio _ _ (Rat.den_pos _), ← abs_eq_natAbs_div_den, abs_of_nonneg (mul_nonneg hx hy)]
  calc x.toRat * y.toRat ≤ y.toRat := mul_le_of_le_one_left hy hone
    _ ≤ |y.toRat| := le_abs_self _
    _ ≤ (2 ^ 54 - 2) * 2 ^ (970 : ℤ) := abs_toRat_le hfinite
    _ < (2 ^ 54 - 1) * 2 ^ (970 : ℤ) := by
      gcongr
      norm_num

section Nonneg

variable {a b : Float} (ha : 0 ≤ a) (hb : 0 ≤ b)

include ha hb

theorem nonneg_add : 0 ≤ a + b := by
  have hpack : ofFloat (a + b) =
      packed (UnpackedFloat.add Format.binary64 a.toModel.unpack b.toModel.unpack) := rfl
  have hfinite (hfa : (ofFloat a).isFinite = true) (hfb : (ofFloat b).isFinite = true) : 0 ≤ a + b :=
    (nonneg_add_iff hfa hfb).2
      (add_nonneg ((nonneg_iff_of_isFinite hfa).1 ha) ((nonneg_iff_of_isFinite hfb).1 hb))
  have hsa := standsNonneg ha
  have hsb := standsNonneg hb
  generalize a.toModel.unpack = u at hsa hpack
  generalize b.toModel.unpack = v at hsb hpack
  cases hsa with
  | infinite => cases hsb <;> exact nonneg_of_packed_infinity hpack
  | zero _ hfa =>
    cases hsb with
    | infinite => exact nonneg_of_packed_infinity hpack
    | zero _ hfb => exact hfinite hfa hfb
    | finite _ hfb => exact hfinite hfa hfb
  | finite _ hfa =>
    cases hsb with
    | infinite => exact nonneg_of_packed_infinity hpack
    | zero _ hfb => exact hfinite hfa hfb
    | finite _ hfb => exact hfinite hfa hfb

theorem nonneg_div (hne : (ofFloat b).toRat ≠ 0) (hfinite : (ofFloat b).isFinite = true) : 0 ≤ a / b := by
  have hpack : ofFloat (a / b) =
      packed (UnpackedFloat.div Format.binary64 a.toModel.unpack b.toModel.unpack) := rfl
  have hinfinite : b.toModel.unpack.isFinite = true := (stands_ofFloat b).isFinite_eq.symm.trans hfinite
  have hsa := standsNonneg ha
  have hsb := standsNonneg hb
  generalize a.toModel.unpack = u at hsa hpack
  generalize b.toModel.unpack = v at hsb hpack hinfinite
  cases hsb with
  | infinite => exact absurd hinfinite Bool.false_ne_true
  | zero _ _ hzero => exact absurd hzero hne
  | finite =>
    cases hsa with
    | infinite => exact nonneg_of_packed_infinity hpack
    | zero sign => exact nonneg_of_packed_zero hpack
    | finite => exact nonneg_of_packed_round hpack

/-- A product with a factor of at most one, which has all its bits. -/
theorem isFinite_mul (hfull : 2 ^ 52 ≤ (ofFloat a).mantissa) (hone : (ofFloat a).toRat ≤ 1)
    (hfa : (ofFloat a).isFinite = true) (hfb : (ofFloat b).isFinite = true) :
    (ofFloat (a * b)).isFinite = true ∧ 0 ≤ a * b := by
  have hpack : ofFloat (a * b) =
      packed (UnpackedFloat.mul Format.binary64 a.toModel.unpack b.toModel.unpack) := rfl
  have hua : a.toModel.unpack.isFinite = true := (stands_ofFloat a).isFinite_eq.symm.trans hfa
  have hub : b.toModel.unpack.isFinite = true := (stands_ofFloat b).isFinite_eq.symm.trans hfb
  have hsa := standsNonneg ha
  have hsb := standsNonneg hb
  generalize a.toModel.unpack = u at hsa hpack hua
  generalize b.toModel.unpack = v at hsb hpack hub
  generalize ofFloat a = x at *
  generalize ofFloat b = y at *
  cases hsa with
  | infinite => exact absurd hua Bool.false_ne_true
  | zero _ _ hzero =>
    rw [toRat_eq_zero_iff, isZero_iff] at hzero
    omega
  | finite hx _ hxq =>
    cases hsb with
    | infinite => exact absurd hub Bool.false_ne_true
    | zero sign =>
      refine ⟨?_, nonneg_of_packed_zero hpack⟩
      rw [hpack]
      exact isFinite_of_isZero (isZero_packed_zero _)
    | finite hy _ hyq =>
      refine ⟨?_, nonneg_of_packed_round hpack⟩
      set q := x.toRat * y.toRat with hq
      have hy0 : 0 ≤ y.toRat := by
        rw [hyq]
        positivity
      have hx0 : 0 ≤ x.toRat := by
        rw [hxq]
        positivity
      have hunits : ((x.mantissa * y.mantissa : ℕ) : ℚ) * 2 ^ (x.power + y.power) =
          q.num.natAbs / q.den := by
        rw [← abs_eq_natAbs_div_den, abs_of_nonneg (mul_nonneg hx0 hy0), hxq, hyq, zpow_add₀ two_ne_zero,
          Nat.cast_mul, mul_mul_mul_comm]
      have hlog : 52 ≤ (x.mantissa * y.mantissa).log2 := by
        rw [Nat.le_log2 (by positivity)]
        exact hfull.trans (Nat.le_mul_of_pos_right _ hy)
      have hround : ofFloat (a * b) = ofRatio false q.num.natAbs q.den :=
        hpack.trans (packed_roundWithAccuracy false (by positivity) (.inl hlog) q.den_pos hunits)
      rw [hround]
      exact isFinite_ofRatio_mul hx0 hone hy0 hfb

end Nonneg

end CodeReview.Binary64
