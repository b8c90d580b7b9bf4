import PhpLint.Number.Decimal
import PhpLint.Proofs.Number.Rounding

namespace PhpLint.Number

theorem natCast_div_eq (num : ℕ) {den : ℕ} (hden : 0 < den) :
    (num : ℚ) / den = (num / den : ℕ) + (num % den : ℕ) / den := by
  have hne : (den : ℚ) ≠ 0 := by exact_mod_cast hden.ne'
  have hnum : (num : ℚ) = den * (num / den : ℕ) + (num % den : ℕ) := by
    exact_mod_cast (Nat.div_add_mod num den).symm
  rw [div_eq_iff hne, add_mul, div_mul_cancel₀ _ hne, hnum]
  ring

-- Twice the remainder says on which side of the middle the quotient is.
theorem roundsTo_roundDiv (num : ℕ) {den : ℕ} (hden : 0 < den) :
    RoundsTo ((num : ℚ) / den) (roundDiv num den) := by
  have hdenq : (0 : ℚ) < den := by exact_mod_cast hden
  have hrem : num % den < den := Nat.mod_lt num hden
  rw [natCast_div_eq num hden, roundDiv]
  generalize num / den = q, num % den = r at *
  split
  · next hlt =>
      apply roundsTo_floor (by positivity)
      rw [div_lt_div_iff₀ hdenq two_pos]
      exact_mod_cast (by omega : r * 2 < 1 * den)
  · split
    · next hgt =>
        apply roundsTo_succ
        · rw [div_lt_div_iff₀ two_pos hdenq]
          exact_mod_cast (by omega : 1 * den < r * 2)
        · rw [div_lt_one hdenq]
          exact_mod_cast hrem
    · have hhalf : (r : ℚ) / den = 1 / 2 := by
        rw [div_eq_div_iff hdenq.ne' two_ne_zero]
        exact_mod_cast (by omega : r * 2 = 1 * den)
      rw [hhalf]
      exact roundsTo_half

section Counts

theorem lt_pow_digitCount (n : ℕ) : n < 10 ^ digitCount n :=
  (Nat.length_toDigits_le_iff (by decide) Nat.length_toDigits_pos).mp le_rfl

theorem pow_digitCount_le {n : ℕ} (hn : 0 < n) : 10 ^ (digitCount n - 1) ≤ n := by
  by_contra hlt
  rcases Nat.eq_zero_or_pos (digitCount n - 1) with hzero | hpos
  · rw [hzero] at hlt
    omega
  · have hle := (Nat.length_toDigits_le_iff (by decide) hpos).mpr (Nat.lt_of_not_le hlt)
    have hcount : (Nat.toDigits 10 n).length = digitCount n := rfl
    omega

theorem digitCount_pos (n : ℕ) : 0 < digitCount n :=
  Nat.length_toDigits_pos

theorem digitCount_eq {n p : ℕ} (hp : 0 < p) (hlow : 10 ^ (p - 1) ≤ n) (hhigh : n < 10 ^ p) :
    digitCount n = p := by
  have hn : 0 < n := lt_of_lt_of_le (by positivity) hlow
  have hgt := (Nat.pow_lt_pow_iff_right (by decide)).mp (hlow.trans_lt (lt_pow_digitCount n))
  have hlt := (Nat.pow_lt_pow_iff_right (by decide)).mp ((pow_digitCount_le hn).trans_lt hhigh)
  omega

end Counts

section Leading

variable {num den : ℕ}

-- The quotient has as many digits as its integer part, or its reciprocal as many as the
-- greatest integer below it.
theorem leadingExponent_bounds (hnum : 0 < num) (hden : 0 < den) :
    (10 : ℚ) ^ leadingExponent num den ≤ num / den ∧
      (num : ℚ) / den < 10 ^ (leadingExponent num den + 1) := by
  have hnumq : (0 : ℚ) < num := by exact_mod_cast hnum
  have hdenq : (0 : ℚ) < den := by exact_mod_cast hden
  rw [leadingExponent]
  split
  · next hle =>
      have hlow := pow_digitCount_le (Nat.div_pos hle hden)
      have hhigh := lt_pow_digitCount (num / den)
      obtain ⟨c, hc⟩ := Nat.exists_eq_succ_of_ne_zero (digitCount_pos (num / den)).ne'
      rw [hc] at hlow hhigh ⊢
      rw [Nat.succ_sub_one, Nat.le_div_iff_mul_le hden] at hlow
      rw [Nat.div_lt_iff_lt_mul hden] at hhigh
      rw [Nat.cast_succ, add_sub_cancel_right, le_div_iff₀ hdenq, div_lt_iff₀ hdenq]
      constructor
      · exact_mod_cast hlow
      · exact_mod_cast hhigh
  · next hlt =>
      have hlow := pow_digitCount_le (Nat.div_pos (by omega : num ≤ den - 1) hnum)
      have hhigh := lt_pow_digitCount ((den - 1) / num)
      obtain ⟨c, hc⟩ := Nat.exists_eq_succ_of_ne_zero (digitCount_pos ((den - 1) / num)).ne'
      rw [hc] at hlow hhigh ⊢
      rw [Nat.succ_sub_one, Nat.le_div_iff_mul_le hnum] at hlow
      rw [Nat.div_lt_iff_lt_mul hnum] at hhigh
      have hpow : ∀ i : ℕ, (0 : ℚ) < 10 ^ i := fun i => by positivity
      have hsucc : -((c.succ : ℕ) : ℤ) + 1 = -(c : ℤ) := by
        push_cast
        ring
      rw [hsucc, zpow_neg, zpow_neg, zpow_natCast, zpow_natCast, inv_eq_one_div, inv_eq_one_div,
        div_le_div_iff₀ (hpow _) hdenq, div_lt_div_iff₀ hdenq (hpow _), one_mul,
        mul_comm (num : ℚ), mul_comm (num : ℚ)]
      constructor
      · exact_mod_cast (by omega : den ≤ 10 ^ c.succ * num)
      · exact_mod_cast (by omega : 10 ^ c * num < den)

theorem roundsTo_shifted (num : ℕ) (hden : 0 < den) (shift : ℤ) :
    RoundsTo ((num : ℚ) / den / 10 ^ (-shift))
      (if 0 ≤ shift then roundDiv (num * Nat.pow 10 shift.toNat) den
        else roundDiv num (den * Nat.pow 10 (-shift).toNat)) := by
  split
  · next hshift =>
      obtain ⟨i, rfl⟩ := Int.eq_ofNat_of_zero_le hshift
      have hround := roundsTo_roundDiv (num * 10 ^ i) hden
      rw [zpow_neg, zpow_natCast, div_inv_eq_mul, div_mul_eq_mul_div]
      exact_mod_cast hround
  · next hshift =>
      obtain ⟨i, hi⟩ : ∃ i : ℕ, -shift = i := ⟨(-shift).toNat, by omega⟩
      have hround := roundsTo_roundDiv num (Nat.mul_pos hden (pow_pos (by decide : 0 < 10) i))
      rw [hi, zpow_natCast, div_div, Int.toNat_natCast]
      exact_mod_cast hround

-- The number is moved by whole digits until as many as are asked for are before the point.
theorem isRounded_nearest {precision : ℕ} (hprecision : 2 ≤ precision) (hnum : 0 < num)
    (hden : 0 < den) :
    IsRounded 10 precision (num / den) (Decimal.nearest precision num den).digits
      (Decimal.nearest precision num den).scale := by
  obtain ⟨hlow, hhigh⟩ := leadingExponent_bounds hnum hden
  have hround := roundsTo_shifted num hden (precision - 1 - leadingExponent num den)
  rw [Decimal.nearest]
  generalize leadingExponent num den = lead at *
  generalize (if 0 ≤ (precision : ℤ) - 1 - lead then _ else _) = q at *
  have hpower : ∀ i : ℕ, ((10 : ℕ) : ℚ) ^ i * ((10 : ℕ) : ℚ) ^ (-((precision : ℤ) - 1 - lead)) =
      10 ^ (i + 1 - precision + lead) := by
    intro i
    rw [← zpow_natCast, ← zpow_add₀ (by norm_num)]
    congr 1
    ring
  have hrounded := isRounded_of_roundsTo (b := 10) (k := -((precision : ℤ) - 1 - lead))
    (v := num / den) (by decide) (by decide) hprecision ?_ ?_ (by exact_mod_cast hround)
  · by_cases hcarry : q = 10 ^ precision
    · rw [if_pos hcarry, if_pos hcarry, neg_add_eq_sub] at hrounded
      simp only [Nat.pow_eq, if_pos hcarry]
      exact hrounded
    · rw [if_neg hcarry, if_neg hcarry] at hrounded
      simp only [Nat.pow_eq, if_neg hcarry]
      exact hrounded
  · rw [hpower, Nat.cast_sub (by omega), Nat.cast_one, sub_add_cancel, sub_self, zero_add]
    exact hlow
  · rw [hpower, add_sub_cancel_left, add_comm 1 lead]
    exact hhigh

theorem isRounded_toDecimal {precision : ℕ} (hprecision : 2 ≤ precision) {d : Dyadic}
    (hd : 0 < d.mantissa) :
    IsRounded 10 precision (d.mantissa * 2 ^ d.exponent) (d.toDecimal precision).digits
      (d.toDecimal precision).scale := by
  rw [Dyadic.toDecimal]
  split
  · next hexponent =>
      obtain ⟨i, hi⟩ := Int.eq_ofNat_of_zero_le hexponent
      have hrounded := isRounded_nearest hprecision (Nat.mul_pos hd (Nat.two_pow_pos i)) one_pos
      rw [hi, Int.toNat_natCast, Nat.shiftLeft_eq]
      simpa using hrounded
  · next hexponent =>
      obtain ⟨i, hi⟩ : ∃ i : ℕ, d.exponent = -i := ⟨(-d.exponent).toNat, by omega⟩
      have hrounded := isRounded_nearest hprecision hd (Nat.two_pow_pos i)
      rw [hi, neg_neg, Int.toNat_natCast, Nat.one_shiftLeft, zpow_neg, ← div_eq_mul_inv]
      exact_mod_cast hrounded

end Leading

end PhpLint.Number
