import Mathlib.Algebra.Ring.Commute
import Mathlib.Algebra.Ring.Int.Defs
import PhpLint.Proofs.Value.IntegerFolding

namespace PhpLint.Value

open Number (Fits floatOfWord)

section Words

variable {x : Int}

-- The powers of 0, 1 and -1 repeat from the first on: an odd exponent is as good as one and
-- an even one as good as two.
theorem pow_of_natAbs_le_one (hx : x.natAbs ≤ 1) (n : Nat) :
    x ^ (if n = 0 then 0 else 2 - n % 2) = x ^ n := by
  by_cases hn : n = 0
  · rw [if_pos hn, hn]
  rw [if_neg hn]
  obtain rfl | rfl | rfl : x = 0 ∨ x = 1 ∨ x = -1 := by omega
  · rw [zero_pow hn, zero_pow (by omega)]
  · rw [one_pow, one_pow]
  · rw [neg_one_pow_eq_pow_mod_two, neg_one_pow_eq_pow_mod_two n]
    congr 1
    omega

theorem fits_pow_of_natAbs_le_one (hx : x.natAbs ≤ 1) (n : Nat) : Fits (x ^ n) := by
  have hsmall : (x ^ n).natAbs ≤ 1 := by
    rw [Int.natAbs_pow]
    exact Nat.pow_le_pow_left hx n |>.trans (Nat.one_pow n).le
  constructor <;> omega

-- With 64 factors beyond one a power is beyond the words.
theorem not_fits_pow {n : Nat} (hx : 1 < x.natAbs) (hn : 64 ≤ n) : ¬Fits (x ^ n) := by
  have hlarge : 2 ^ 64 ≤ (x ^ n).natAbs :=
    calc 2 ^ 64 ≤ 2 ^ n := Nat.pow_le_pow_right (by decide) hn
      _ ≤ x.natAbs ^ n := Nat.pow_le_pow_left hx n
      _ = (x ^ n).natAbs := (Int.natAbs_pow x n).symm
  rintro ⟨hmin, hmax⟩
  omega

-- Neither of the shortcuts changes the result.
theorem wordPower?_eq (x : Int) (n : Nat) : wordPower? x n = Number.word? (x ^ n) := by
  rw [wordPower?]
  by_cases hx : x.natAbs ≤ 1
  · rw [if_pos hx, Int.pow_eq, pow_of_natAbs_le_one hx]
  rw [if_neg hx]
  by_cases hn : n ≤ 63
  · rw [if_pos hn, Int.pow_eq]
  · rw [if_neg hn, Number.word?_of_not_fits (not_fits_pow (by omega) (by omega))]

end Words

-- The power is exact as far as it is a word, and what the operands give as doubles if not.
def FoldsPower (a b : Value) (x y : Int64) : Prop :=
  IsExact (binary .power a b) (x.toInt ^ y.toInt.toNat) (Float.pow (floatOfWord x) (floatOfWord y))

section Operands

variable {a b : Value} {x y : Int64}

theorem binary_power (ha : a.toNumber? = some (.int x)) (hb : b.toNumber? = some (.int y)) :
    binary .power a b = ⟨numberPower (.int x) (.int y), none⟩ := by
  simp [binary, power, ha, hb]

theorem numberPower_of_narrow (hy : 0 ≤ y.toInt) (hnarrow : y.toInt < 2 ^ 32) :
    numberPower (.int x) (.int y) = (Number.word? (x.toInt ^ y.toInt.toNat)).elim
      (float (Float.pow (floatOfWord x) (floatOfWord y))) int := by
  have hsize : y.toInt.toNat < UInt32.size := by
    change y.toInt.toNat < 2 ^ 32
    omega
  rw [numberPower, if_pos ⟨hy, hsize⟩, wordPower?_eq]

theorem numberPower_of_outside (hy : y.toInt < 0 ∨ 2 ^ 32 ≤ y.toInt) :
    numberPower (.int x) (.int y) = float (Float.pow (floatOfWord x) (floatOfWord y)) := by
  rw [numberPower, if_neg]
  rintro ⟨hneg, hsize⟩
  change y.toInt.toNat < 2 ^ 32 at hsize
  omega

theorem binary_power_of_outside (ha : a.toNumber? = some (.int x))
    (hb : b.toNumber? = some (.int y)) (hy : y.toInt < 0 ∨ 2 ^ 32 ≤ y.toInt) :
    binary .power a b = ⟨float (Float.pow (floatOfWord x) (floatOfWord y)), none⟩ := by
  rw [binary_power ha hb, numberPower_of_outside hy]

-- From 32 bits on the result is a double, which is right unless the base is 0, 1 or -1.
theorem foldsPower_of_wide (ha : a.toNumber? = some (.int x)) (hb : b.toNumber? = some (.int y))
    (hwide : 2 ^ 32 ≤ y.toInt) : FoldsPower a b x y ↔ 1 < x.toInt.natAbs := by
  rw [FoldsPower, binary_power_of_outside ha hb (.inr hwide)]
  constructor
  · intro h
    by_contra hx
    obtain ⟨n, hn, -⟩ := h.1 (fits_pow_of_natAbs_le_one (Nat.not_lt.mp hx) _)
    cases hn
  · intro hx
    exact ⟨fun h => absurd h (not_fits_pow hx (by omega)), fun _ => rfl⟩

theorem foldsPower_iff (ha : a.toNumber? = some (.int x)) (hb : b.toNumber? = some (.int y))
    (hy : 0 ≤ y.toInt) : FoldsPower a b x y ↔ y.toInt < 2 ^ 32 ∨ 1 < x.toInt.natAbs := by
  by_cases hnarrow : y.toInt < 2 ^ 32
  · have hfolds : FoldsPower a b x y := by
      rw [FoldsPower, binary_power ha hb, numberPower_of_narrow hy hnarrow]
      apply isExact_elim
    exact iff_of_true hfolds (.inl hnarrow)
  · rw [or_iff_right hnarrow]
    exact foldsPower_of_wide ha hb (Int.not_lt.mp hnarrow)

end Operands

-- Powers of integers are exact except those of 0, 1 and -1 whose exponent does not fit in 32
-- bits: these are doubles, as is any power with a negative exponent.
theorem integer_powers_fold_iff {a b : Value} {x y : Int64} (ha : a.CountsAs x)
    (hb : b.CountsAs y) :
    (0 ≤ y.toInt → (FoldsPower a b x y ↔ y.toInt < 2 ^ 32 ∨ 1 < x.toInt.natAbs)) ∧
    (y.toInt < 0 ∨ 2 ^ 32 ≤ y.toInt →
      binary .power a b = ⟨float (Float.pow (floatOfWord x) (floatOfWord y)), none⟩) := by
  replace ha := toNumber?_eq_int_iff.mpr ha
  replace hb := toNumber?_eq_int_iff.mpr hb
  exact ⟨foldsPower_iff ha hb, binary_power_of_outside ha hb⟩

-- The smallest word is a power of -2.
theorem integer_powers_fold_smallest :
    (string "-2").CountsAs (-2) ∧ (int 63).CountsAs 63 ∧ FoldsPower (string "-2") (int 63) (-2) 63 ∧
      binary .power (string "-2") (int 63) = ⟨int Int64.minValue, none⟩ := by
  have hdigits : Number.IsDigits ['2'] := ⟨by decide, List.all_eq_true.mp (by decide)⟩
  have ha : (string "-2").CountsAs (-2) := .string (.minus hdigits)
  have hfolds := ((integer_powers_fold_iff ha (.int 63)).1 (by decide)).mpr (.inl (by decide))
  obtain ⟨n, hn, hpower⟩ := hfolds.1 ⟨by decide, by decide⟩
  obtain rfl : n = Int64.minValue := Int64.toInt_inj.mp hpower
  exact ⟨ha, .int 63, hfolds, hn⟩

-- One to any power is one, but not from the first exponent of 33 bits on.
theorem unit_power_not_exact :
    let y : Int64 := 4294967296
    (int 1).CountsAs 1 ∧ (int y).CountsAs y ∧ 0 ≤ y.toInt ∧ Fits (1 ^ y.toInt.toNat) ∧
      binary .power (int 1) (int y) = ⟨float (Float.pow (floatOfWord 1) (floatOfWord y)), none⟩ ∧
      ¬FoldsPower (int 1) (int y) 1 y := by
  intro y
  have hwide : 2 ^ 32 ≤ y.toInt := by decide
  refine ⟨.int 1, .int y, by decide, ?_, binary_power_of_outside rfl rfl (.inr hwide), ?_⟩
  · rw [one_pow]
    exact ⟨by decide, by decide⟩
  · rw [foldsPower_of_wide rfl rfl hwide]
    decide

end PhpLint.Value
