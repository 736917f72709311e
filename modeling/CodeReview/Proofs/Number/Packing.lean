import CodeReview.Proofs.Number.Rounding
import Mathlib

/-!
# Bit patterns of floating-point numbers

What a bit pattern stands for (`stands`), and the pattern of a result (`packed`). A result is brought to the
format in two shifts, and the bits that the first one cuts off leave two behind. These two are enough to round
it (`Describes.isNearest`), so that the pattern is that of the rounded quotient (`packed_round`,
`packed_roundWithAccuracy`).
-/

namespace CodeReview.Binary64

open Float.Model Float.Model.UnpackedFloat

/-! ## Parts of a pattern -/

def signOf (negative : Bool) : Sign := if negative then .negative else .positive

section Parts

variable (x : Binary64)

theorem toNat_unpackMantissa :
    (@unpackMantissa Format.binary64 x.bits.toBitVec).toNat = x.fraction := by
  simp [unpackMantissa, fraction, magnitude, BitVec.extractLsb]

theorem toNat_unpackExponent :
    (@unpackExponent Format.binary64 x.bits.toBitVec).toNat = x.field := by
  simp [unpackExponent, field, magnitude, BitVec.extractLsb, Nat.shiftRight_eq_div_pow]
  omega

theorem toNat_unpackSign :
    (@unpackSign Format.binary64 x.bits.toBitVec).toNat = x.bits.toNat / 2 ^ 63 := by
  have := x.bits.toNat_lt
  simp [unpackSign, BitVec.extractLsb, Nat.shiftRight_eq_div_pow]
  omega

theorem ofBitVec_unpackSign :
    Sign.ofBitVec (@unpackSign Format.binary64 x.bits.toBitVec) = signOf x.negative := by
  have hzero : @unpackSign Format.binary64 x.bits.toBitVec = 0#1 ↔ x.bits.toNat < 2 ^ 63 := by
    rw [← BitVec.toNat_inj, toNat_unpackSign, BitVec.toNat_ofNat]
    omega
  rw [Sign.ofBitVec, signOf, negative]
  simp only [hzero, decide_eq_true_eq, ← not_lt]
  split <;> rfl

/-- What a pattern stands for, case by case. -/
inductive Stands : UnpackedFloat → Prop
  | nan (h : x.isNaN = true) : Stands .notANumber
  | infinite (h : x.isInfinite = true) : Stands (.infinity (signOf x.negative))
  | zero (h : x.isZero = true) : Stands (.zero (signOf x.negative))
  | finite (h : x.isFinite = true) (hpos : 0 < x.mantissa) :
    Stands (.finite (signOf x.negative) x.mantissa x.power hpos)

theorem Stands.of_eq {x : Binary64} {m : ℕ} {e : ℤ} (h : x.isFinite = true) (hm : m = x.mantissa)
    (he : e = x.power) (hpos : 0 < m) : x.Stands (.finite (signOf x.negative) m e hpos) := by
  subst hm he
  exact .finite h hpos

theorem stands : x.Stands (UnpackedFloat.unpack Format.binary64 x.bits.toBitVec) := by
  have hlast : @unpackExponent Format.binary64 x.bits.toBitVec = -1#_ ↔ x.field = 2047 := by
    rw [← BitVec.toNat_inj, toNat_unpackExponent]
    rfl
  have hfirst : @unpackExponent Format.binary64 x.bits.toBitVec = 0#_ ↔ x.field = 0 := by
    rw [← BitVec.toNat_inj, toNat_unpackExponent]
    rfl
  have hwhole : @unpackMantissa Format.binary64 x.bits.toBitVec = 0#_ ↔ x.fraction = 0 := by
    rw [← BitVec.toNat_inj, toNat_unpackMantissa]
    rfl
  have hmagnitude : x.magnitude = x.field * 2 ^ 52 + x.fraction := (Nat.div_add_mod' _ _).symm
  unfold UnpackedFloat.unpack
  simp only [ofBitVec_unpackSign]
  split
  · next h =>
    have hfield := hlast.1 h
    split
    · next h => exact .infinite (by simp [isInfinite, hfield, hwhole.1 h])
    · next h => exact .nan (by simp [isNaN, hfield, mt hwhole.2 h])
  · next h =>
    have hfield : x.field < 2047 := by
      have hlt := (@unpackExponent Format.binary64 x.bits.toBitVec).isLt
      have hne := mt hlast.2 h
      rw [toNat_unpackExponent] at hlt
      exact Nat.lt_of_le_of_ne (Nat.le_of_lt_succ hlt) hne
    have hfinite : x.isFinite = true := by rwa [isFinite, decide_eq_true_eq]
    split
    · next h =>
      have hzero := hfirst.1 h
      split
      · next h => exact .zero (by simp [isZero, hmagnitude, hzero, hwhole.1 h])
      · next h =>
        refine .of_eq hfinite (by rw [mantissa, if_pos hzero, toNat_unpackMantissa]) ?_ _
        rw [power, if_pos hzero, toNat_unpackExponent, hzero]
        rfl
    · next h =>
      have hnonzero := mt hfirst.2 h
      refine .of_eq hfinite ?_ ?_ _
      · have hlt := (@unpackMantissa Format.binary64 x.bits.toBitVec).isLt
        rw [mantissa, if_neg hnonzero, BitVec.toNat_append, ← Nat.shiftLeft_add_eq_or_of_lt hlt,
          toNat_unpackMantissa, Nat.add_comm]
        rfl
      · rw [power, if_neg hnonzero, toNat_unpackExponent]
        rfl

end Parts

/-! ## Patterns of results -/

theorem toNat_packComponents (negative : Bool) {field : ℕ} (fraction : ℕ) (hfield : field < 2 ^ 11) :
    (packComponents Format.binary64 (signOf negative) (BitVec.ofNat 11 field)
      (BitVec.ofNat 52 fraction)).toNat =
      (if negative then 2 ^ 63 else 0) + field * 2 ^ 52 + fraction % 2 ^ 52 := by
  have hexponent : (BitVec.ofNat 11 field).toNat = field := by
    rw [BitVec.toNat_ofNat, Nat.mod_eq_of_lt hfield]
  have hmantissa : (BitVec.ofNat 52 fraction).toNat = fraction % 2 ^ 52 := BitVec.toNat_ofNat ..
  have hsign : (signOf negative).toBitVec.toNat = if negative then 1 else 0 := by
    cases negative <;> rfl
  rw [packComponents, BitVec.toNat_append, ← Nat.shiftLeft_add_eq_or_of_lt (BitVec.isLt _), BitVec.toNat_append,
    ← Nat.shiftLeft_add_eq_or_of_lt (BitVec.isLt _), hexponent, hmantissa, hsign, Nat.shiftLeft_eq,
    Nat.shiftLeft_eq]
  split <;> omega

/-- The pattern of a result. -/
def packed (result : UnpackedFloat) : Binary64 :=
  ⟨UInt64.ofBitVec (UnpackedFloat.pack Format.binary64 result)⟩

theorem ofBitVec_packComponents (negative : Bool) {field : ℕ} (fraction : ℕ) (hfield : field < 2 ^ 11) :
    (⟨UInt64.ofBitVec (packComponents Format.binary64 (signOf negative) (BitVec.ofNat 11 field)
      (BitVec.ofNat 52 fraction))⟩ : Binary64) = ofMagnitude negative (field * 2 ^ 52 + fraction % 2 ^ 52) := by
  have hnat := toNat_packComponents negative fraction hfield
  rw [ofMagnitude, mk.injEq, ← UInt64.toNat_inj, UInt64.toNat_ofBitVec, hnat, UInt64.toNat_ofNat_of_lt']
  · split <;> omega
  · rw [UInt64.size]
    split <;> omega

theorem packed_zero (negative : Bool) : packed (.zero (signOf negative)) = ofMagnitude negative 0 :=
  ofBitVec_packComponents negative 0 (by decide)

theorem packed_infinity (negative : Bool) : packed (.infinity (signOf negative)) = infinity negative :=
  @ofBitVec_packComponents negative 2047 0 (by decide)

theorem packed_finite (negative : Bool) {m : ℕ} {e : ℤ}
    (hpos : 0 < m) (hm : m < 2 ^ 53) (he : -1074 ≤ e)
    (hbits : e = -1074 ∨ 2 ^ 52 ≤ m) : packed (.finite (signOf negative) m e hpos) =
      ofMagnitude negative (min ((e + 1074).toNat * 2 ^ 52 + m) infiniteMagnitude) := by
  have hlog : m.log2 + 1 = 53 ↔ 2 ^ 52 ≤ m := by
    rw [Nat.succ_inj, Nat.log2_eq_iff hpos.ne']
    exact and_iff_left hm
  have hbiased : (e + Format.binary64.exponentBias + Format.binary64.mantissaBitsWithoutImplicit).toNat =
      (e + 1074).toNat + 1 := by
    change (e + (1023 : ℕ) + (52 : ℕ)).toNat = _
    omega
  unfold packed UnpackedFloat.pack
  simp only [hbiased]
  split
  · next h =>
    have hlarge : 2 ^ 11 ≤ (e + 1074).toNat + 1 + 1 := h
    have hmax : min ((e + 1074).toNat * 2 ^ 52 + m) infiniteMagnitude = infiniteMagnitude := by
      rw [infiniteMagnitude]
      omega
    rw [hmax]
    exact packed_infinity negative
  · next h =>
    have hsmall : (e + 1074).toNat + 1 < 2047 := by
      have : ¬ 2 ^ 11 ≤ (e + 1074).toNat + 1 + 1 := h
      omega
    split
    · next h =>
      have hfull := hlog.1 h
      rw [ofBitVec_packComponents negative m (by omega), infiniteMagnitude]
      congr 1
      omega
    · next h =>
      have hleast := hbits.resolve_right (mt hlog.2 h)
      refine (@ofBitVec_packComponents negative 0 m (by decide)).trans ?_
      rw [infiniteMagnitude]
      congr 1
      have := mt hlog.2 h
      omega

/-! ## Rounding -/

/-- The mantissa is cut off from a number, and the two bits behind it say where between it and the next one
the number is. -/
structure Describes (em : ExtendedMantissa) (q : ℚ) : Prop where
  ge : em.mantissa ≤ q
  lt : q < em.mantissa + 1
  round : em.roundBit = true ↔ em.mantissa + 1 / 2 ≤ q
  sticky : em.stickyBit = true ↔ q ≠ em.mantissa ∧ q ≠ em.mantissa + 1 / 2

section Describes

variable {em : ExtendedMantissa} {q : ℚ}

theorem describes_exact (m : ℕ) : Describes (.ofMantissaAndAccuracy m .exact) m where
  ge := le_rfl
  lt := lt_add_one _
  round := by simp [ExtendedMantissa.ofMantissaAndAccuracy]
  sticky := by simp [ExtendedMantissa.ofMantissaAndAccuracy]

theorem Describes.inexact_iff (h : Describes em q) :
    (em.roundBit || em.stickyBit) = true ↔ q ≠ em.mantissa := by
  rw [Bool.or_eq_true, h.round, h.sticky]
  constructor
  · rintro (hround | ⟨hne, -⟩)
    · exact fun heq => by linarith
    · exact hne
  · intro hne
    by_cases hhalf : q = em.mantissa + 1 / 2
    · exact .inl hhalf.ge
    · exact .inr ⟨hne, hhalf⟩

theorem Describes.shiftRightOne (h : Describes em q) : Describes em.shiftRightOne (q / 2) := by
  obtain ⟨hge, hlt⟩ := And.intro h.ge h.lt
  have hm : (em.mantissa : ℚ) = 2 * (em.mantissa / 2 : ℕ) + (em.mantissa % 2 : ℕ) := by
    exact_mod_cast (Nat.div_add_mod em.mantissa 2).symm
  rcases Nat.mod_two_eq_zero_or_one em.mantissa with hbit | hbit
  · rw [hbit, Nat.cast_zero, add_zero] at hm
    refine ⟨?_, ?_, ?_, h.inexact_iff.trans ?_⟩ <;>
      simp only [ExtendedMantissa.shiftRightOne, hbit, bne_self_eq_false, Bool.false_eq_true, false_iff, not_le]
    · linarith
    · linarith
    · linarith
    · constructor
      · exact fun hne => ⟨fun heq => hne (by linarith), fun heq => by linarith⟩
      · rintro ⟨hne, -⟩
        exact fun heq => hne (by linarith)
  · rw [hbit, Nat.cast_one] at hm
    refine ⟨?_, ?_, ?_, h.inexact_iff.trans ?_⟩ <;> simp only [ExtendedMantissa.shiftRightOne, hbit]
    · linarith
    · linarith
    · exact iff_of_true rfl (by linarith)
    · constructor
      · exact fun hne => ⟨fun heq => by linarith, fun heq => hne (by linarith)⟩
      · rintro ⟨-, hne⟩
        exact fun heq => hne (by linarith)

theorem Describes.shiftRight (h : Describes em q) (k : ℕ) : Describes (em >>> k) (q / 2 ^ k) := by
  induction k with
  | zero => rwa [pow_zero, div_one]
  | succ k ih =>
    rw [pow_succ, ← div_div]
    exact ih.shiftRightOne

/-- The two bits are enough to round. -/
theorem Describes.isNearest (h : Describes em q) : IsNearest q em.roundedMantissa := by
  obtain ⟨m, round, sticky⟩ := em
  obtain ⟨hge, hlt, hround, hsticky⟩ := h
  dsimp only at hge hlt hround hsticky
  cases round with
  | false =>
    have hbelow : q < m + 1 / 2 := not_le.1 (mt hround.2 Bool.false_ne_true)
    have hm : ExtendedMantissa.roundedMantissa ⟨m, false, sticky⟩ = m := by cases sticky <;> rfl
    rw [hm]
    exact isNearest_of_mem (by linarith) hbelow.le fun _ => ⟨by linarith, hbelow⟩
  | true =>
    have habove := hround.1 rfl
    cases sticky with
    | false =>
      have hhalf : q = m + 1 / 2 := by
        by_contra hne
        exact absurd (hsticky.2 ⟨fun heq => by linarith, hne⟩) Bool.false_ne_true
      change IsNearest q (m + m % 2)
      rcases Nat.mod_two_eq_zero_or_one m with heven | hodd
      · rw [heven]
        exact isNearest_of_mem (by push_cast; linarith) (by push_cast; linarith) fun h => by omega
      · rw [hodd]
        exact isNearest_of_mem (by push_cast; linarith) (by push_cast; linarith) fun h => by omega
    | true =>
      have hmore : m + 1 / 2 < q := lt_of_le_of_ne habove (hsticky.1 rfl).2.symm
      change IsNearest q (m + 1)
      exact isNearest_of_mem (by push_cast; linarith) (by push_cast; linarith)
        fun _ => ⟨by push_cast; linarith, by push_cast; linarith⟩

end Describes

theorem targetExponent_eq (m : ℕ) (e : ℤ) :
    Format.binary64.targetExponent (totalExponent m e) = max (m.log2 + e - 52) (-1074) := by
  change max ((m.log2 : ℤ) + 1 + e - (53 : ℕ)) (3 - 2 ^ 10 - (53 : ℕ)) = _
  omega

/-- A mantissa of 53 bits or fewer stays as it is. -/
theorem shiftToTargetExponent_of_lt {r : ℕ} {t : ℤ} (hr : r < 2 ^ 53) (ht : -1074 ≤ t) :
    shiftToTargetExponent Format.binary64 r t .exact = (⟨r, false, false⟩, t) := by
  have hlog : r.log2 ≤ 52 := by
    by_cases h : r = 0
    · rw [h]
      decide
    · exact Nat.lt_succ_iff.1 ((Nat.log2_lt h).2 hr)
  have hshift : (max ((r.log2 : ℤ) + t - 52) (-1074) - t).toNat = 0 := by omega
  unfold shiftToTargetExponent shiftToExponent
  simp only [targetExponent_eq, hshift]
  exact congrArg _ (add_zero t)

/-- A mantissa that was rounded up to 54 bits loses its last one, which is zero. -/
theorem shiftToTargetExponent_two_pow {t : ℤ} (ht : -1074 ≤ t) :
    shiftToTargetExponent Format.binary64 (2 ^ 53) t .exact = (⟨2 ^ 52, false, false⟩, t + 1) := by
  have hshift : (max (((2 ^ 53).log2 : ℤ) + t - 52) (-1074) - t).toNat = 1 := by
    rw [Nat.log2_two_pow]
    omega
  unfold shiftToTargetExponent shiftToExponent
  simp only [targetExponent_eq, hshift]
  rfl

/-- The units of a mantissa of 53 bits, or the smallest ones. -/
theorem fits_max {m : ℕ} (hm : m ≠ 0) (e : ℤ) : Fits (m * 2 ^ e) (max (m.log2 + e - 52) (-1074)) := by
  have hlo : (2 : ℚ) ^ ((m.log2 : ℤ) + e) ≤ m * 2 ^ e := by
    rw [zpow_add₀ two_ne_zero, zpow_natCast]
    gcongr
    exact_mod_cast Nat.log2_self_le hm
  have hhi : (m : ℚ) * 2 ^ e < 2 ^ ((m.log2 : ℤ) + 1 + e) := by
    rw [zpow_add₀ two_ne_zero]
    gcongr
    rw [zpow_add_one₀ two_ne_zero, zpow_natCast, ← pow_succ]
    exact_mod_cast Nat.lt_log2_self
  refine ⟨le_max_right _ _, hhi.trans_le (zpow_le_zpow_right₀ one_le_two (by omega)), ?_⟩
  rcases max_choice ((m.log2 : ℤ) + e - 52) (-1074) with hmax | hmax
  · exact .inr ((zpow_le_zpow_right₀ one_le_two (by omega)).trans hlo)
  · exact .inl hmax

/-- After the first shift nothing is lost any more. -/
theorem packed_of_shift (negative : Bool) {m r : ℕ} {e t : ℤ} {accuracy : Accuracy} {em : ExtendedMantissa}
    (hshift : shiftToTargetExponent Format.binary64 m e accuracy = (em, t)) (hr : em.roundedMantissa = r)
    (hle : r ≤ 2 ^ 53) (hmin : -1074 ≤ t) (hge : t ≠ -1074 → 2 ^ 52 ≤ r) :
    packed (roundWithAccuracy Format.binary64 (signOf negative) m e accuracy) =
      ofMagnitude negative (min ((t + 1074).toNat * 2 ^ 52 + r) infiniteMagnitude) := by
  unfold roundWithAccuracy
  simp only [hshift, hr]
  rcases hle.lt_or_eq with hlt | rfl
  · simp only [shiftToTargetExponent_of_lt hlt hmin]
    split
    · next hzero =>
      have hleast : t = -1074 := by
        by_contra hne
        exact absurd (hge hne) (by omega)
      rw [packed_zero, hzero, hleast]
      rfl
    · exact packed_finite negative _ hlt hmin (or_iff_not_imp_left.2 hge)
  · have hcarry : (t + 1 + 1074).toNat * 2 ^ 52 + 2 ^ 52 = (t + 1074).toNat * 2 ^ 52 + 2 ^ 53 := by omega
    simp only [shiftToTargetExponent_two_pow hmin]
    rw [dif_neg (by decide), packed_finite negative _ (by decide) (by omega) (.inr le_rfl), hcarry]

/-- A number is rounded as its quotient is, if its mantissa has enough bits. -/
theorem packed_roundWithAccuracy (negative : Bool) {m num den : ℕ} {e : ℤ} (hm : m ≠ 0)
    (he : 52 ≤ m.log2 ∨ e ≤ -1074) (hden : 0 < den) (hq : (m : ℚ) * 2 ^ e = num / den) :
    packed (roundWithAccuracy Format.binary64 (signOf negative) m e .exact) = ofRatio negative num den := by
  have hfits := fits_max hm e
  set t : ℤ := max (m.log2 + e - 52) (-1074) with ht
  set k : ℕ := (t - e).toNat with hk
  have hek : e + k = t := by omega
  have hshift : shiftToTargetExponent Format.binary64 m e .exact =
      (ExtendedMantissa.ofMantissaAndAccuracy m .exact >>> k, t) := by
    unfold shiftToTargetExponent shiftToExponent
    simp only [targetExponent_eq, ← ht, ← hk, hek]
  have hcut : (m : ℚ) * 2 ^ e / 2 ^ t = m / 2 ^ k := by
    rw [← hek, zpow_add₀ two_ne_zero, zpow_natCast]
    field_simp
  have hnearest := ((describes_exact m).shiftRight k).isNearest
  rw [← hcut] at hnearest
  obtain ⟨hle, hge⟩ := hnearest.le_of_fits hfits
  rw [packed_of_shift negative hshift rfl hle hfits.min_le hge]
  rw [hq] at hfits hnearest
  rw [ofRatio_eq hden hfits hnearest]

/-- A number is rounded as its quotient is. -/
theorem packed_round (negative : Bool) {m num den : ℕ} {e : ℤ} (hm : m ≠ 0) (hden : 0 < den)
    (hq : (m : ℚ) * 2 ^ e = num / den) :
    packed (UnpackedFloat.round Format.binary64 (signOf negative) m e) = ofRatio negative num den := by
  set k : ℕ := (e - max (m.log2 + e - 52) (-1074)).toNat with hk
  have hround : UnpackedFloat.round Format.binary64 (signOf negative) m e =
      roundWithAccuracy Format.binary64 (signOf negative) (m <<< k) (e - k) .exact := by
    unfold UnpackedFloat.round decreaseExponent
    simp only [targetExponent_eq, ← hk]
  have hshift : m <<< k = m * 2 ^ k := Nat.shiftLeft_eq m k
  have hlog : (m * 2 ^ k).log2 = m.log2 + k := by
    rw [Nat.log2_eq_iff (by positivity), Nat.pow_add, Nat.add_right_comm, Nat.pow_add]
    exact ⟨Nat.mul_le_mul_right _ (Nat.log2_self_le hm),
      Nat.mul_lt_mul_of_pos_right Nat.lt_log2_self (by positivity)⟩
  rw [hround, hshift]
  refine packed_roundWithAccuracy negative (by positivity) (by omega) hden ?_
  rw [← hq, Nat.cast_mul, Nat.cast_pow, Nat.cast_ofNat, zpow_sub₀ two_ne_zero, zpow_natCast]
  field_simp

end CodeReview.Binary64
