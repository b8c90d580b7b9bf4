import PhpLint.Number.Decimal
import PhpLint.Proofs.Number.Doubles
import PhpLint.Proofs.Number.SignificantDigits

namespace PhpLint.Number

open Float.Model UnpackedFloat

section Shifts

-- What the bits of an extended mantissa say of a number: the residue behind the round bit is
-- zero exactly if the sticky bit is not set.
structure Represents (em : ExtendedMantissa) (v : ℚ) : Prop where
  exists_residue : ∃ r : ℚ, 0 ≤ r ∧ r < 1 / 2 ∧ (em.stickyBit = true ↔ r ≠ 0) ∧
    v = em.mantissa + (if em.roundBit then 1 / 2 else 0) + r

theorem represents_exact (m : ℕ) : Represents (.ofMantissaAndAccuracy m .exact) m :=
  ⟨0, by simp [ExtendedMantissa.ofMantissaAndAccuracy]⟩

variable {em : ExtendedMantissa} {v : ℚ}

-- The last bit of the mantissa becomes the round bit, and the round bit joins the residue.
theorem Represents.shiftRightOne (h : Represents em v) : Represents em.shiftRightOne (v / 2) := by
  obtain ⟨r, hnonneg, hlt, hsticky, rfl⟩ := h.exists_residue
  have hmantissa : (em.mantissa : ℚ) = 2 * (em.mantissa / 2 : ℕ) + (em.mantissa % 2 : ℕ) := by
    exact_mod_cast (Nat.div_add_mod em.mantissa 2).symm
  have hlast : (if em.mantissa % 2 != 0 then (1 / 2 : ℚ) else 0) = (em.mantissa % 2 : ℕ) / 2 := by
    rcases Nat.mod_two_eq_zero_or_one em.mantissa with hbit | hbit <;> simp [hbit]
  have hround : (0 : ℚ) ≤ (if em.roundBit then 1 / 2 else 0) ∧
      (if em.roundBit then (1 / 2 : ℚ) else 0) ≤ 1 / 2 := by
    split <;> norm_num
  refine ⟨(if em.roundBit then 1 / 2 else 0) / 2 + r / 2, by linarith, by linarith, ?_, ?_⟩
  · have hzero : (if em.roundBit then (1 / 2 : ℚ) else 0) / 2 + r / 2 = 0 ↔
        (if em.roundBit then (1 / 2 : ℚ) else 0) = 0 ∧ r = 0 := by
      constructor
      · intro hsum
        constructor <;> linarith
      · rintro ⟨hbit, rfl⟩
        rw [hbit, zero_div, add_zero]
    rw [Ne, hzero, ExtendedMantissa.shiftRightOne, Bool.or_eq_true, hsticky]
    cases em.roundBit <;> simp
  · rw [ExtendedMantissa.shiftRightOne, hlast]
    linarith

theorem Represents.shiftRight (h : Represents em v) (k : ℕ) :
    Represents (em >>> k) (v / 2 ^ k) := by
  induction k with
  | zero =>
      rw [pow_zero, div_one]
      exact h
  | succ k ih =>
      rw [pow_succ, ← div_div]
      exact ih.shiftRightOne

theorem Represents.roundsTo (h : Represents em v) : RoundsTo v em.roundedMantissa := by
  obtain ⟨r, hnonneg, hlt, hsticky, rfl⟩ := h.exists_residue
  obtain ⟨m, roundBit, stickyBit⟩ := em
  rw [add_assoc]
  cases roundBit <;> cases stickyBit <;>
    simp only [ExtendedMantissa.roundedMantissa, ExtendedMantissa.accuracy,
      Accuracy.roundToNearestEven]
  case false.false | false.true =>
    simpa using roundsTo_floor hnonneg hlt
  case true.false =>
    have hzero : r = 0 := by simpa using hsticky
    simpa [hzero] using roundsTo_half
  case true.true =>
    have hpos : 0 < r := lt_of_le_of_ne hnonneg (Ne.symm (hsticky.mp rfl))
    exact roundsTo_succ (by simpa using hpos) (by simp; linarith)

end Shifts

section Rounding

variable {m : ℕ} {e : ℤ}

-- All bits of a mantissa but the first 53 are shifted out.
theorem shiftToTargetExponent_eq (m : ℕ) (he : -1074 ≤ e) (accuracy : Accuracy) :
    shiftToTargetExponent Format.binary64 m e accuracy =
      (ExtendedMantissa.ofMantissaAndAccuracy m accuracy >>> (m.log2 - 52),
        e + (m.log2 - 52 : ℕ)) := by
  have hamount : (Format.binary64.targetExponent (totalExponent m e) - e).toNat = m.log2 - 52 := by
    have hmin : Format.binary64.minExponent = -1074 := rfl
    have hbits : (Format.binary64.mantissaBits : ℤ) = 53 := rfl
    rw [Format.targetExponent, totalExponent, hmin, hbits]
    omega
  rw [shiftToTargetExponent, shiftToExponent, hamount]

-- A carry out of the rounded mantissa leaves a power of two, which is shifted once more.
theorem shiftToTargetExponent_carry {q : ℕ} (hlow : 2 ^ 52 ≤ q) (hhigh : q ≤ 2 ^ 53)
    (he : -1074 ≤ e) :
    (shiftToTargetExponent Format.binary64 q e .exact).1.mantissa =
        (if q = 2 ^ 53 then 2 ^ 52 else q) ∧
      (shiftToTargetExponent Format.binary64 q e .exact).2 = if q = 2 ^ 53 then e + 1 else e := by
  rw [shiftToTargetExponent_eq q he]
  split
  · next hcarry =>
      rw [hcarry, Nat.log2_two_pow]
      exact ⟨rfl, rfl⟩
  · next hfits =>
      have hlog : q.log2 = 52 := by
        rw [Nat.log2_eq_iff (by omega)]
        omega
      rw [hlog]
      exact ⟨rfl, add_zero e⟩

theorem roundWithAccuracy_eq (sign : Sign) (he : -1074 ≤ e) {i q d : ℕ} {k : ℤ} (hd : 0 < d)
    (hi : m.log2 - 52 = i)
    (hq : (ExtendedMantissa.ofMantissaAndAccuracy m .exact >>> i).roundedMantissa = q)
    (hmantissa : (shiftToTargetExponent Format.binary64 q (e + i) .exact).1.mantissa = d)
    (hexponent : (shiftToTargetExponent Format.binary64 q (e + i) .exact).2 = k) :
    roundWithAccuracy Format.binary64 sign m e .exact = .finite sign d k hd := by
  subst hi hq hmantissa hexponent
  simp only [roundWithAccuracy, shiftToTargetExponent_eq m he]
  exact dif_neg hd.ne'

-- The first bits are rounded as the bits behind them say.
theorem exists_roundWithAccuracy (sign : Sign) (hm : 2 ^ 52 ≤ m) (he : -1074 ≤ e) :
    ∃ d k hd, IsRounded 2 53 (m * 2 ^ e) d k ∧ e ≤ k ∧
      roundWithAccuracy Format.binary64 sign m e .exact = .finite sign d k hd := by
  obtain ⟨i, hi⟩ := Nat.exists_eq_add_of_le ((Nat.le_log2 (by omega)).mpr hm)
  obtain ⟨hlow, hhigh⟩ := (Nat.log2_eq_iff (by omega)).mp hi
  rw [add_right_comm] at hhigh
  have hround := ((represents_exact m).shiftRight i).roundsTo
  generalize hq : (ExtendedMantissa.ofMantissaAndAccuracy m .exact >>> i).roundedMantissa = q
    at hround
  have hpower : ∀ j : ℕ,
      ((2 : ℕ) : ℚ) ^ j * ((2 : ℕ) : ℚ) ^ (e + i) = (2 ^ (j + i) : ℕ) * 2 ^ e := by
    intro j
    push_cast
    rw [zpow_add₀ two_ne_zero, pow_add, zpow_natCast]
    ring
  have hrounded := isRounded_of_roundsTo (b := 2) (p := 53) (k := e + i) (v := m * 2 ^ e) (q := q)
    (by decide) (by decide) (by decide) ?_ ?_ ?_
  · have hbounds : 2 ^ 52 ≤ q ∧ q ≤ 2 ^ 53 := by
      have hle := hrounded.le_digits
      have hlt := hrounded.digits_lt
      by_cases hcarry : q = 2 ^ 53
      · omega
      · rw [if_neg hcarry] at hle hlt
        exact ⟨hle, hlt.le⟩
    obtain ⟨hmantissa, hexponent⟩ :=
      shiftToTargetExponent_carry hbounds.1 hbounds.2 (by omega : -1074 ≤ e + (i : ℤ))
    have hpos := Nat.lt_of_lt_of_le (Nat.two_pow_pos 52) hrounded.le_digits
    refine ⟨_, _, hpos, hrounded, ?_,
      roundWithAccuracy_eq sign he hpos (by omega) hq hmantissa hexponent⟩
    split <;> omega
  · rw [hpower]
    gcongr
  · rw [hpower]
    gcongr
  · have hquotient : (m : ℚ) * 2 ^ e / ((2 : ℕ) : ℚ) ^ (e + i) = m / 2 ^ i := by
      rw [Nat.cast_two, zpow_add₀ two_ne_zero, zpow_natCast]
      field_simp
    rwa [hquotient]

end Rounding

section Packing

variable {d : ℕ} {e : ℤ}

theorem pack_finite (hlow : 2 ^ 52 ≤ d) (hhigh : d < 2 ^ 53) (hd : 0 < d) :
    UnpackedFloat.pack Format.binary64 (.finite .positive d e hd) =
      if 2047 ≤ (e + 1075).toNat then packedInfinity Format.binary64 .positive
      else packComponents Format.binary64 .positive (BitVec.ofNat 11 (e + 1075).toNat)
        (BitVec.ofNat 52 d) := by
  have hlog : d.log2 = 52 := by
    rw [Nat.log2_eq_iff (by omega)]
    omega
  have hbias : e + Format.binary64.exponentBias + (52 : ℕ) = e + 1075 := add_assoc e 1023 52
  have hmax : 2 ^ 11 ≤ (e + 1075).toNat + 1 ↔ 2047 ≤ (e + 1075).toNat := Nat.succ_le_succ_iff
  rw [UnpackedFloat.pack]
  simp only [hbias, hmax, hlog]
  rfl

theorem parts?_pack (hlow : 2 ^ 52 ≤ d) (hhigh : d < 2 ^ 53) (hd : 0 < d) (hmin : -1074 ≤ e)
    (hmax : e ≤ 971) :
    parts? (.ofModel (Float.Model.pack (.finite .positive d e hd))) = some ((d : ℤ), e) := by
  obtain ⟨k, rfl⟩ : ∃ k : ℕ, e = k - 1075 := ⟨(e + 1075).toNat, by omega⟩
  have hparts := partsOf?_unpack (packComponents Format.binary64 .positive (BitVec.ofNat 11 k)
    (BitVec.ofNat 52 d))
  have hd : d % 2 ^ 52 + 2 ^ 52 = d := by omega
  simp only [unpackMantissa_packComponents, unpackExponent_packComponents,
    unpackSign_packComponents, Sign.ofBitVec_toBitVec, BitVec.toNat_ofNat,
    Nat.mod_eq_of_lt (by omega : k < 2 ^ 11), if_neg (by omega : k ≠ 2047),
    if_neg (by omega : k ≠ 0), hd] at hparts
  have hpack := pack_finite (e := k - 1075) hlow hhigh (by omega)
  rw [sub_add_cancel, Int.toNat_natCast, if_neg (by omega)] at hpack
  rw [← hpack] at hparts
  exact hparts

theorem pack_overflow (hlow : 2 ^ 52 ≤ d) (hhigh : d < 2 ^ 53) (hd : 0 < d) (he : 971 < e) :
    Float.ofModel (Float.Model.pack (.finite .positive d e hd)) = positiveInfinity := by
  have hpack := pack_finite (e := e) hlow hhigh hd
  rw [if_pos (by omega)] at hpack
  rw [Float.Model.pack]
  simp only [hpack]
  rfl

end Packing

section Nearest

def largestDouble : ℚ :=
  (2 ^ 53 - 1) * 2 ^ 971

example : parts? (.ofBits 0x7fefffffffffffff) = some (2 ^ 53 - 1, 971) := by decide +kernel

-- The double nearest to a number, and of two that are equally near the one whose mantissa is
-- even. A number is infinite if the power of two behind the largest double is as near.
inductive IsNearestDouble (v : ℚ) : Float → Prop where
  | finite {x : Float} {m e : ℤ} (hparts : parts? x = some (m, e))
      (hnearest : ∀ y u, exactValue? y = some u → |v - m * 2 ^ e| ≤ |v - u|)
      (heven : ∀ y u, exactValue? y = some u → |v - m * 2 ^ e| = |v - u| → u ≠ m * 2 ^ e → Even m)
      (hrange : v - largestDouble < 2 ^ 1024 - v) : IsNearestDouble v x
  | infinite (hrange : 2 ^ 1024 - v ≤ v - largestDouble) : IsNearestDouble v positiveInfinity

variable {v : ℚ} {d : ℕ} {e : ℤ}

-- A number is rounded beyond an exponent if the next power of two is as near as the greatest
-- number below it, whose mantissa is odd.
theorem IsRounded.le_iff (h : IsRounded 2 53 v d e) (k : ℤ) :
    e ≤ k ↔ v - (2 ^ 53 - 1) * 2 ^ k < 2 ^ 53 * 2 ^ k - v := by
  have hunit : (0 : ℚ) < 2 ^ k := by positivity
  have hnext : (2 : ℚ) ^ 53 * 2 ^ k = (2 ^ 52 : ℤ) * 2 ^ (k + 1) := by
    rw [zpow_add_one₀ two_ne_zero]
    push_cast
    ring
  have hnearest := h.nearest
  have heven := h.even_of_tie
  simp only [Nat.cast_ofNat] at hnearest heven
  constructor
  · intro hmax
    have hle : (d : ℚ) * 2 ^ e ≤ (2 ^ 53 - 1) * 2 ^ k := by
      gcongr
      · rw [le_sub_iff_add_le]
        exact_mod_cast h.digits_lt
      · norm_num
    have hpower := hnearest (2 ^ 52) (k + 1) (by norm_num)
    have htie := heven (2 ^ 52) (k + 1) (by norm_num)
    rw [← hnext] at hpower htie
    by_contra hbeyond
    rw [abs_of_nonneg (by linarith : 0 ≤ v - d * 2 ^ e)] at hpower htie
    rcases le_total (2 ^ 53 * 2 ^ k) v with hv | hv
    · rw [abs_of_nonneg (sub_nonneg.mpr hv)] at hpower
      linarith
    · rw [abs_sub_comm, abs_of_nonneg (sub_nonneg.mpr hv)] at hpower htie
      have hlast : (d : ℚ) * (2 : ℕ) ^ e = (2 ^ 53 - 1 : ℕ) * (2 : ℕ) ^ k := by
        push_cast
        linarith
      obtain ⟨rfl, -⟩ := eq_of_mul_zpow_eq (p := 53) (by decide) (by decide)
        ⟨h.le_digits, h.digits_lt⟩ (by decide) hlast
      exact absurd (htie (by linarith) (by linarith)) (by decide)
  · intro hrange
    by_contra hmax
    have hge : (2 : ℚ) ^ 53 * 2 ^ k ≤ d * 2 ^ e := by
      rw [hnext]
      gcongr
      · exact_mod_cast h.le_digits
      · norm_num
      · omega
    have hlast := hnearest (2 ^ 53 - 1) k (by norm_num)
    push_cast at hlast
    rw [abs_sub_comm, abs_of_nonneg (by linarith : 0 ≤ d * 2 ^ e - v), le_abs] at hlast
    rcases hlast with hlast | hlast <;> linarith

theorem IsRounded.exponent_nonneg (h : IsRounded 2 53 v d e) (hv : 2 ^ 52 ≤ v) : 0 ≤ e := by
  by_contra hneg
  have hsmall := (h.le_iff (-1)).mp (by omega)
  rw [zpow_neg_one] at hsmall
  linarith

theorem isNearestDouble_pack (h : IsRounded 2 53 v d e) (hmin : -1074 ≤ e) (hd : 0 < d) :
    IsNearestDouble v (.ofModel (Float.Model.pack (.finite .positive d e hd))) := by
  have hlow : 2 ^ 52 ≤ d := h.le_digits
  have hrange : e ≤ 971 ↔ v - largestDouble < 2 ^ 1024 - v := by
    rw [h.le_iff, largestDouble, show 1024 = 53 + 971 from rfl, pow_add]
    rfl
  by_cases hmax : e ≤ 971
  · refine .finite (parts?_pack hlow h.digits_lt hd hmin hmax) ?_ ?_ (hrange.mp hmax)
    · intro y u hu
      obtain ⟨m, k, hm, rfl⟩ := exists_parts hu
      exact_mod_cast h.nearest m k (by exact_mod_cast hm)
    · intro y u hu htie hne
      obtain ⟨m, k, hm, rfl⟩ := exists_parts hu
      exact_mod_cast h.even_of_tie m k (by exact_mod_cast hm) (by exact_mod_cast htie)
        (by exact_mod_cast hne)
  · rw [pack_overflow hlow h.digits_lt hd (by omega)]
    exact .infinite (not_lt.mp (mt hrange.mpr hmax))

-- An integer is multiplied by the power of ten one and rounded.
theorem exists_ofScientific {n : ℕ} (hn : 2 ^ 53 ≤ n) :
    ∃ d k hd, IsRounded 2 53 n d k ∧ 0 ≤ k ∧
      Float.ofScientific n false 0 = .ofModel (Float.Model.pack (.finite .positive d k hd)) := by
  have hshifted : 2 ^ 52 ≤ n <<< 53 * 1 := by
    rw [Nat.shiftLeft_eq]
    omega
  obtain ⟨d, k, hd, hrounded, -, hround⟩ :=
    exists_roundWithAccuracy .positive hshifted (by decide : -1074 ≤ (-53 : ℤ))
  have hvalue : ((n <<< 53 * 1 : ℕ) : ℚ) * 2 ^ (-53 : ℤ) = n := by
    rw [mul_one, Nat.shiftLeft_eq]
    push_cast
    rw [zpow_neg, mul_assoc]
    norm_num
  rw [hvalue] at hrounded
  have hle : 0 ≤ k := hrounded.exponent_nonneg (by exact_mod_cast (by omega : 2 ^ 52 ≤ n))
  have hmodel : UnpackedFloat.ofScientific Format.binary64 n 0 = .finite .positive d k hd := by
    have hsmall : ¬(0 : ℤ) < -(2 ^ Format.binary64.exponentBits + n.log2) := by
      have hpower : (2 : ℤ) ^ Format.binary64.exponentBits = 2048 := rfl
      omega
    rw [← hround, UnpackedFloat.ofScientific, dif_neg (by omega : n ≠ 0), if_neg (by decide),
      if_neg hsmall, if_pos le_rfl]
    rfl
  refine ⟨d, k, hd, hrounded, hle, ?_⟩
  rw [← hmodel, Float.ofScientific, dif_neg (by omega)]
  rfl

theorem toFloat_integer {n : ℕ} (hn : n ≠ 0) :
    Decimal.toFloat ⟨n, 0⟩ =
      if 310 < digitCount n then positiveInfinity else Float.ofScientific n false 0 := by
  have hlead : (310 : ℤ) < 0 + digitCount n ↔ 310 < digitCount n := by omega
  have hsmall : ¬((0 : ℤ) + digitCount n < -330) := by omega
  simp only [Decimal.toFloat, if_neg hn, hlead, if_neg hsmall, le_refl, if_true, Int.toNat_zero]

theorem two_pow_le_ten_pow {i k : ℕ} (c : ℕ) (hi : i ≤ 205 * c) (hk : 62 * c ≤ k) :
    2 ^ i ≤ 10 ^ k :=
  calc 2 ^ i ≤ 2 ^ (205 * c) := Nat.pow_le_pow_right (by decide) hi
    _ = (2 ^ 205) ^ c := pow_mul 2 205 c
    _ ≤ (10 ^ 62) ^ c := Nat.pow_le_pow_left (by norm_num) c
    _ = 10 ^ (62 * c) := (pow_mul 10 62 c).symm
    _ ≤ 10 ^ k := Nat.pow_le_pow_right (by decide) hk

-- Integers of more than 310 digits are not even converted.
theorem isNearestDouble_toFloat {n : ℕ} (hn : 2 ^ 53 ≤ n) :
    IsNearestDouble n (Decimal.toFloat ⟨n, 0⟩) := by
  rw [toFloat_integer (by omega)]
  split
  · next hmany =>
      have hdigits := pow_digitCount_le (by omega : 0 < n)
      have hpower := two_pow_le_ten_pow 5 (by decide : 1024 ≤ 205 * 5) (Nat.le_pred_of_lt hmany)
      have hle := Nat.cast_le (α := ℚ).mpr (hpower.trans hdigits)
      rw [Nat.cast_pow, Nat.cast_two] at hle
      have hlargest : largestDouble ≤ 2 ^ 1024 := by
        rw [largestDouble, show 1024 = 53 + 971 from rfl, pow_add]
        gcongr
        norm_num
      exact .infinite ((sub_nonpos.mpr hle).trans (sub_nonneg.mpr (hlargest.trans hle)))
  · obtain ⟨d, k, hd, hrounded, hle, hfloat⟩ := exists_ofScientific hn
    rw [hfloat]
    exact isNearestDouble_pack hrounded (by omega) hd

end Nearest

end PhpLint.Number
