import Mathlib.Algebra.Order.Field.Power
import Mathlib.Algebra.Order.Field.Rat
import Mathlib.Algebra.Ring.Parity
import Mathlib.Data.Rat.Cast.Order
import Mathlib.Tactic.FieldSimp
import Mathlib.Tactic.Linarith
import Mathlib.Tactic.NormNum
import Mathlib.Tactic.Positivity
import Mathlib.Tactic.Ring

namespace PhpLint.Number

-- The nearest integer to a number, and the even one of two that are equally near.
structure RoundsTo (v : ℚ) (q : ℕ) : Prop where
  error_le : |v - q| ≤ 1 / 2
  even_of_half : |v - q| = 1 / 2 → Even q

section Integers

variable {v : ℚ} {q : ℕ}

theorem one_le_abs_sub_add {m : ℤ} (hm : m ≠ q) : 1 ≤ |v - m| + |v - q| := by
  have hgap : (1 : ℚ) ≤ |(m : ℚ) - q| := by
    exact_mod_cast Int.one_le_abs (sub_ne_zero.mpr hm)
  rw [abs_sub_comm v m]
  exact hgap.trans (abs_sub_le _ _ _)

theorem RoundsTo.nearest (h : RoundsTo v q) (m : ℤ) : |v - q| ≤ |v - m| := by
  by_cases hm : m = q
  · rw [hm, Int.cast_natCast]
  · linarith [h.error_le, one_le_abs_sub_add (v := v) hm]

-- Integers that are equally near are both a half away.
theorem RoundsTo.even_of_tie (h : RoundsTo v q) {m : ℤ} (hm : m ≠ q)
    (htie : |v - q| = |v - m|) : Even q := by
  apply h.even_of_half
  linarith [h.error_le, one_le_abs_sub_add (v := v) hm]

theorem RoundsTo.le_of_le (h : RoundsTo v q) {n : ℕ} (hn : n ≤ v) : n ≤ q := by
  by_contra hlt
  have hsucc : (q : ℚ) + 1 ≤ n := by exact_mod_cast Nat.lt_of_not_le hlt
  linarith [(abs_le.mp h.error_le).2]

theorem RoundsTo.le_of_lt (h : RoundsTo v q) {n : ℕ} (hn : v < n) : q ≤ n := by
  by_contra hlt
  have hsucc : (n : ℚ) + 1 ≤ q := by exact_mod_cast Nat.lt_of_not_le hlt
  linarith [(abs_le.mp h.error_le).1]

section Fractions

variable {t : ℚ}

theorem roundsTo_floor (hnonneg : 0 ≤ t) (hhalf : t < 1 / 2) : RoundsTo (q + t) q := by
  have herror : |(q : ℚ) + t - q| = t := by rw [add_sub_cancel_left, abs_of_nonneg hnonneg]
  exact ⟨herror.trans_le hhalf.le, fun h => absurd (herror.symm.trans h) hhalf.ne⟩

theorem roundsTo_succ (hhalf : 1 / 2 < t) (hlt : t < 1) : RoundsTo (q + t) (q + 1) := by
  have herror : |(q : ℚ) + t - (q + 1 : ℕ)| = 1 - t := by
    rw [Nat.cast_succ, add_sub_add_left_eq_sub, abs_sub_comm, abs_of_pos (by linarith)]
  refine ⟨herror.trans_le (by linarith), fun h => ?_⟩
  rw [herror] at h
  linarith

theorem roundsTo_half : RoundsTo (q + 1 / 2) (q + q % 2) := by
  rcases Nat.even_or_odd q with heven | hodd
  · rw [Nat.even_iff.mp heven, add_zero]
    exact ⟨by norm_num, fun _ => heven⟩
  · rw [Nat.odd_iff.mp hodd]
    refine ⟨?_, fun _ => hodd.add_one⟩
    rw [Nat.cast_succ, add_sub_add_left_eq_sub]
    norm_num [abs_le]

end Fractions

end Integers

-- The number with as many digits in the base, the first of them not zero, that is nearest
-- among all with at most as many digits. Of two that are equally near it is the even one.
structure IsRounded (base precision : ℕ) (v : ℚ) (d : ℕ) (e : ℤ) : Prop where
  le_digits : base ^ (precision - 1) ≤ d
  digits_lt : d < base ^ precision
  nearest (m k : ℤ) : |m| < base ^ precision → |v - d * base ^ e| ≤ |v - m * base ^ k|
  even_of_tie (m k : ℤ) : |m| < base ^ precision → |v - d * base ^ e| = |v - m * base ^ k| →
    (m : ℚ) * base ^ k ≠ d * base ^ e → Even d

section Digits

variable {b p : ℕ} {v : ℚ} {k : ℤ} {q : ℕ}

theorem pow_pred_mul (hp : 0 < p) : b ^ (p - 1) * b = b ^ p := by
  rw [← pow_succ, Nat.sub_add_cancel hp]

-- A number with its last place further down is smaller than all that have a digit more.
theorem mul_zpow_lt (hb : 0 < b) (hp : 0 < p) {m j : ℤ} (hm : |m| < b ^ p) (hj : j < k) :
    (m : ℚ) * b ^ j < b ^ (p - 1) * b ^ k := by
  have hbase : (0 : ℚ) < b := by exact_mod_cast hb
  have hm' : (m : ℚ) < b ^ p := by exact_mod_cast (le_abs_self m).trans_lt hm
  calc (m : ℚ) * b ^ j < b ^ p * b ^ j := by gcongr
    _ = b ^ (p - 1) * b ^ (j + 1) := by
        have hpow : (b : ℚ) ^ p = b ^ (p - 1) * b := by exact_mod_cast (pow_pred_mul hp).symm
        rw [hpow, zpow_add_one₀ hbase.ne']
        ring
    _ ≤ b ^ (p - 1) * b ^ k := by
        gcongr
        · exact_mod_cast hb
        · exact hj

theorem abs_sub_mul_zpow (hb : 0 < b) (r : ℚ) :
    |v - r * b ^ k| = |v / b ^ k - r| * b ^ k := by
  have hbase : (0 : ℚ) < b := by exact_mod_cast hb
  have hunit : (0 : ℚ) < b ^ k := zpow_pos hbase k
  rw [← abs_of_pos hunit, ← abs_mul, abs_of_pos hunit, sub_mul, div_mul_cancel₀ _ hunit.ne']

-- Multiples of the last place are rounded as integers.
theorem RoundsTo.nearest_mul (hb : 0 < b) (hq : RoundsTo (v / b ^ k) q) (m : ℤ) :
    |v - q * b ^ k| ≤ |v - m * b ^ k| ∧
      (|v - q * b ^ k| = |v - m * b ^ k| → (m : ℚ) * b ^ k ≠ q * b ^ k → Even q) := by
  have hunit : (0 : ℚ) < b ^ k := zpow_pos (by exact_mod_cast hb) k
  rw [abs_sub_mul_zpow hb, abs_sub_mul_zpow hb]
  constructor
  · exact mul_le_mul_of_nonneg_right (hq.nearest m) hunit.le
  · intro htie hne
    refine hq.even_of_tie ?_ (mul_right_cancel₀ hunit.ne' htie)
    rintro rfl
    exact hne rfl

theorem exists_mul_zpow (hb : 0 < b) {m j : ℤ} (hj : k ≤ j) :
    ∃ n : ℤ, (m : ℚ) * b ^ j = n * b ^ k := by
  have hbase : (b : ℚ) ≠ 0 := by exact_mod_cast hb.ne'
  obtain ⟨i, rfl⟩ := Int.le.dest hj
  refine ⟨m * b ^ i, ?_⟩
  rw [zpow_add₀ hbase, zpow_natCast]
  push_cast
  ring

-- The digits of a number that are left at some place decide on how it is rounded.
theorem RoundsTo.nearest_digits (hb : 0 < b) (hp : 0 < p) (hlow : b ^ (p - 1) * b ^ k ≤ v)
    (hq : RoundsTo (v / b ^ k) q) {m j : ℤ} (hm : |m| < b ^ p) :
    |v - q * b ^ k| ≤ |v - m * b ^ j| ∧
      (|v - q * b ^ k| = |v - m * b ^ j| → (m : ℚ) * b ^ j ≠ q * b ^ k → Even q) := by
  rcases le_or_gt k j with hj | hj
  · obtain ⟨n, hn⟩ := exists_mul_zpow (m := m) hb hj
    rw [hn]
    exact hq.nearest_mul hb n
  · have hlt : |v - q * b ^ k| < |v - m * b ^ j| := by
      have hfirst := (hq.nearest_mul hb (b ^ (p - 1) : ℕ)).1
      rw [Int.cast_natCast, Nat.cast_pow, abs_of_nonneg (sub_nonneg.mpr hlow)] at hfirst
      have hsmall := mul_zpow_lt hb hp hm hj
      linarith [le_abs_self (v - m * b ^ j)]
    exact ⟨hlt.le, fun htie => absurd htie hlt.ne⟩

-- Rounding up to a power of the base moves the last place.
theorem isRounded_of_roundsTo (hb : 2 ≤ b) (heven : Even b) (hp : 2 ≤ p)
    (hlow : b ^ (p - 1) * b ^ k ≤ v) (hhigh : v < b ^ p * b ^ k) (hq : RoundsTo (v / b ^ k) q) :
    IsRounded b p v (if q = b ^ p then b ^ (p - 1) else q) (if q = b ^ p then k + 1 else k) := by
  have hpos : 0 < b := by omega
  have hbase : (b : ℚ) ≠ 0 := by exact_mod_cast hpos.ne'
  have hunit : (0 : ℚ) < b ^ k := zpow_pos (by exact_mod_cast hpos) k
  have hq_ge : b ^ (p - 1) ≤ q := by
    apply hq.le_of_le
    rw [le_div_iff₀ hunit]
    exact_mod_cast hlow
  have hq_le : q ≤ b ^ p := by
    apply hq.le_of_lt
    rw [div_lt_iff₀ hunit]
    exact_mod_cast hhigh
  have hnearest := fun m j => hq.nearest_digits hpos (by omega) hlow (m := m) (j := j)
  by_cases hcarry : q = b ^ p
  · rw [if_pos hcarry, if_pos hcarry]
    have hvalue : ((b ^ (p - 1) : ℕ) : ℚ) * b ^ (k + 1) = q * b ^ k := by
      rw [hcarry, ← pow_pred_mul (by omega : 0 < p), zpow_add_one₀ hbase]
      push_cast
      ring
    refine ⟨le_rfl, Nat.pow_lt_pow_right (by omega) (by omega), ?_, ?_⟩
    · intro m j hm
      rw [hvalue]
      exact (hnearest m j hm).1
    · exact fun _ _ _ _ _ => heven.pow_of_ne_zero (by omega)
  · rw [if_neg hcarry, if_neg hcarry]
    exact ⟨hq_ge, lt_of_le_of_ne hq_le hcarry, fun m j hm => (hnearest m j hm).1,
      fun m j hm => (hnearest m j hm).2⟩

section Scaling

variable {d : ℕ} {e : ℤ}

-- A number that has these digits is its own nearest one.
theorem isRounded_self (hlow : b ^ (p - 1) ≤ d) (hhigh : d < b ^ p) :
    IsRounded b p (d * b ^ e) d e := by
  refine ⟨hlow, hhigh, fun m j _ => ?_, fun m j _ htie hne => ?_⟩
  · rw [sub_self, abs_zero]
    exact abs_nonneg _
  · rw [sub_self, abs_zero, eq_comm, abs_eq_zero, sub_eq_zero] at htie
    exact absurd htie.symm hne

theorem abs_sub_scaled (hb : 0 < b) (r : ℚ) (j : ℤ) :
    |v * b ^ k - r * b ^ (j + k)| = |v - r * b ^ j| * b ^ k := by
  have hbase : (0 : ℚ) < b := by exact_mod_cast hb
  rw [zpow_add₀ hbase.ne', ← mul_assoc, ← sub_mul, abs_mul, abs_of_pos (zpow_pos hbase k)]

theorem IsRounded.scale (hb : 0 < b) (h : IsRounded b p v d e) (k : ℤ) :
    IsRounded b p (v * b ^ k) d (e + k) := by
  have hbase : (0 : ℚ) < b := by exact_mod_cast hb
  have hunit : (0 : ℚ) < b ^ k := zpow_pos hbase k
  refine ⟨h.le_digits, h.digits_lt, fun m j hm => ?_, fun m j hm htie hne => ?_⟩
  · rw [← sub_add_cancel j k, abs_sub_scaled hb, abs_sub_scaled hb]
    exact mul_le_mul_of_nonneg_right (h.nearest m (j - k) hm) hunit.le
  · rw [← sub_add_cancel j k, abs_sub_scaled hb, abs_sub_scaled hb] at htie
    refine h.even_of_tie m (j - k) hm (mul_right_cancel₀ hunit.ne' htie) fun heq => hne ?_
    rw [← sub_add_cancel j k, zpow_add₀ hbase.ne', zpow_add₀ hbase.ne', ← mul_assoc, ← mul_assoc, heq]

end Scaling

section Uniqueness

variable {d d' : ℕ} {e e' : ℤ}

theorem mul_zpow_lt_of_lt (hb : 0 < b) (hp : 0 < p) (hd : d < b ^ p) (hd' : b ^ (p - 1) ≤ d')
    (he : e < e') : (d : ℚ) * b ^ e < d' * b ^ e' := by
  have hsmall := mul_zpow_lt (m := d) hb hp (by rw [Nat.abs_cast]; exact_mod_cast hd) he
  have hcast : ((b ^ (p - 1) : ℕ) : ℚ) ≤ d' := by exact_mod_cast hd'
  push_cast at hcast
  exact lt_of_lt_of_le (by exact_mod_cast hsmall) (by gcongr)

theorem eq_of_mul_zpow_eq (hb : 0 < b) (hp : 0 < p) (hd : b ^ (p - 1) ≤ d ∧ d < b ^ p)
    (hd' : b ^ (p - 1) ≤ d' ∧ d' < b ^ p) (h : (d : ℚ) * b ^ e = d' * b ^ e') :
    d = d' ∧ e = e' := by
  rcases lt_trichotomy e e' with he | rfl | he
  · exact absurd h (mul_zpow_lt_of_lt hb hp hd.2 hd'.1 he).ne
  · have hunit : (b : ℚ) ^ e ≠ 0 := (zpow_pos (by exact_mod_cast hb) e).ne'
    exact ⟨by exact_mod_cast mul_right_cancel₀ hunit h, rfl⟩
  · exact absurd h (mul_zpow_lt_of_lt hb hp hd'.2 hd.1 he).ne'

theorem succ_lt_of_even {m n : ℕ} (hm : Even m) (hn : Even n) (h : m < n) : m + 1 < n := by
  rcases hm, hn with ⟨⟨x, hx⟩, ⟨y, hy⟩⟩
  omega

theorem abs_sub_lt_of_between {x y z : ℚ} (hxy : x < y) (hyz : y < z)
    (htie : |v - x| = |v - z|) : |v - y| < |v - x| := by
  rcases abs_eq_abs.mp htie with hsame | hmiddle
  · linarith
  · rw [abs_of_pos (by linarith : 0 < v - x)]
    exact abs_lt.mpr ⟨by linarith, by linarith⟩

-- Two even numbers have another one between them, which is nearer to their middle.
theorem IsRounded.not_value_lt (hb : 0 < b) (heven : Even b) (hp : 0 < p) (h : IsRounded b p v d e)
    (h' : IsRounded b p v d' e') : ¬(d : ℚ) * b ^ e < d' * b ^ e' := by
  intro hlt
  have hunit : (0 : ℚ) < b ^ e := zpow_pos (by exact_mod_cast hb) e
  have hd : |(d : ℤ)| < b ^ p := by rw [Nat.abs_cast]; exact_mod_cast h.digits_lt
  have hd' : |(d' : ℤ)| < b ^ p := by rw [Nat.abs_cast]; exact_mod_cast h'.digits_lt
  have htie : |v - d * b ^ e| = |v - d' * b ^ e'| :=
    le_antisymm (by exact_mod_cast h.nearest d' e' hd') (by exact_mod_cast h'.nearest d e hd)
  have hd_even : Even d := h.even_of_tie d' e' hd' (by exact_mod_cast htie) hlt.ne'
  have hd'_even : Even d' := h'.even_of_tie d e hd (by exact_mod_cast htie.symm) hlt.ne
  have he : e ≤ e' := by
    by_contra he
    exact lt_asymm hlt (mul_zpow_lt_of_lt hb hp h'.digits_lt h.le_digits (not_le.mp he))
  obtain ⟨i, rfl⟩ := Int.le.dest he
  have hvalue : (d' : ℚ) * b ^ (e + i) = ((d' * b ^ i : ℕ) : ℚ) * b ^ e := by
    rw [zpow_add₀ (by exact_mod_cast hb.ne'), zpow_natCast]
    push_cast
    ring
  rw [hvalue] at hlt htie
  have hgap : d + 1 < d' * b ^ i := by
    apply succ_lt_of_even hd_even (hd'_even.mul_right _)
    exact_mod_cast lt_of_mul_lt_mul_right hlt hunit.le
  have hnext : |((d + 1 : ℕ) : ℤ)| < b ^ p := by
    rw [Nat.abs_cast]
    exact_mod_cast succ_lt_of_even hd_even (heven.pow_of_ne_zero hp.ne') h.digits_lt
  have hbelow : (d : ℚ) * b ^ e < ((d + 1 : ℕ) : ℚ) * b ^ e := by
    gcongr
    exact Nat.lt_succ_self d
  have habove : ((d + 1 : ℕ) : ℚ) * b ^ e < ((d' * b ^ i : ℕ) : ℚ) * b ^ e := by gcongr
  have hnearer := abs_sub_lt_of_between hbelow habove htie
  have hnear := h.nearest (d + 1 : ℕ) e hnext
  rw [Int.cast_natCast] at hnear
  exact absurd hnear hnearer.not_ge

theorem IsRounded.unique (hb : 0 < b) (heven : Even b) (hp : 0 < p) (h : IsRounded b p v d e)
    (h' : IsRounded b p v d' e') : d = d' ∧ e = e' := by
  apply eq_of_mul_zpow_eq hb hp ⟨h.le_digits, h.digits_lt⟩ ⟨h'.le_digits, h'.digits_lt⟩
  exact le_antisymm (not_lt.mp (h'.not_value_lt hb heven hp h))
    (not_lt.mp (h.not_value_lt hb heven hp h'))

end Uniqueness

end Digits

end PhpLint.Number
