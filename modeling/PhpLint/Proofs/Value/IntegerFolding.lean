import PhpLint.Proofs.Number.Integers
import PhpLint.Value.Operate

namespace PhpLint.Value

open Number (Fits floatOfWord)

-- The values that are integers for an operator, and which ones.
inductive CountsAs : Value → Int64 → Prop where
  | null : CountsAs null 0
  | no : CountsAs (bool false) 0
  | yes : CountsAs (bool true) 1
  | int (n : Int64) : CountsAs (int n) n
  | string {s : String} {n : Int64} : Number.DenotesInt s.toList n.toInt → CountsAs (string s) n

theorem toNumber?_eq_int_iff {v : Value} {n : Int64} :
    v.toNumber? = some (.int n) ↔ v.CountsAs n := by
  constructor
  · intro h
    cases v with
    | null =>
        cases h
        exact .null
    | bool b =>
        cases b with
        | false =>
            cases h
            exact .no
        | true =>
            cases h
            exact .yes
    | int m =>
        obtain rfl : m = n := Number.int.inj (Option.some.inj h)
        exact .int m
    | string s => exact .string (Number.ofText?_eq_int_iff.mp h)
    | _ => cases h
  · intro h
    cases h with
    | string hs => exact Number.ofText?_eq_int_iff.mpr hs
    | _ => rfl

-- The result is exact if that is a word, and a double that was computed from doubles if not.
def IsExact (outcome : Outcome) (r : Int) (rounded : Float) : Prop :=
  (Fits r → ∃ n, outcome = ⟨int n, none⟩ ∧ n.toInt = r) ∧
    (¬Fits r → outcome = ⟨float rounded, none⟩)

section Operators

variable {a b : Value} {x y : Int64}

theorem isExact_elim (r : Int) (rounded : Float) :
    IsExact ⟨(Number.word? r).elim (float rounded) int, none⟩ r rounded := by
  constructor
  · intro h
    rw [Number.word?_of_fits h]
    exact ⟨Int64.ofInt r, rfl, Number.toInt_ofInt_of_fits h⟩
  · intro h
    rw [Number.word?_of_not_fits h]
    rfl

theorem isExact_arithmetic (exact : Int → Int → Int) (rounded : Float → Float → Float)
    (ha : a.toNumber? = some (.int x)) (hb : b.toNumber? = some (.int y)) :
    IsExact ⟨arithmetic exact rounded a b, none⟩ (exact x.toInt y.toInt)
      (rounded (floatOfWord x) (floatOfWord y)) := by
  have helim : arithmetic exact rounded a b = (Number.word? (exact x.toInt y.toInt)).elim
      (float (rounded (floatOfWord x) (floatOfWord y))) int := by
    rw [arithmetic, ha, hb]
    cases hword : Number.word? (exact x.toInt y.toInt) <;> simp [hword]
  rw [helim]
  apply isExact_elim

-- A remainder is smaller than a word, so it is one.
theorem toInt_remainder (x : Int64) (hy : y ≠ 0) :
    (Int64.ofInt (x.toInt.tmod y.toInt)).toInt = x.toInt.tmod y.toInt ∧
      (x.toInt.tmod y.toInt).natAbs < y.toInt.natAbs := by
  have hzero : y.toInt ≠ 0 := fun h => hy (Int64.toInt_inj.mp h)
  have hmod := Nat.mod_lt x.toInt.natAbs (Int.natAbs_pos.mpr hzero)
  rw [← Int.natAbs_tmod] at hmod
  refine ⟨Number.toInt_ofInt_of_fits ?_, hmod⟩
  obtain ⟨hmin, hmax⟩ := Number.fits_toInt y
  constructor <;> omega

theorem sign_remainder (x y : Int) : x.tmod y = 0 ∨ (x.tmod y).sign = x.sign := by
  rw [Int.sign_tmod]
  by_cases hdvd : y ∣ x
  · exact .inl (Int.tmod_eq_zero_of_dvd hdvd)
  · exact .inr (if_neg hdvd)

theorem modulo_of_ne_zero (ha : a.toNumber? = some (.int x)) (hb : b.toNumber? = some (.int y))
    (hy : y ≠ 0) : modulo a b = ⟨int (Int64.ofInt (x.toInt.tmod y.toInt)), none⟩ := by
  simp [modulo, ha, hb, Number.toWord, hy]

-- A quotient stays an integer if there is no remainder.
theorem divide_of_ne_zero (ha : a.toNumber? = some (.int x)) (hb : b.toNumber? = some (.int y))
    (hy : y ≠ 0) :
    (x.toInt.tmod y.toInt = 0 →
      IsExact (divide a b) (x.toInt.tdiv y.toInt) (floatOfWord x / floatOfWord y)) ∧
    (x.toInt.tmod y.toInt ≠ 0 →
      divide a b = ⟨float (floatOfWord x / floatOfWord y), none⟩) := by
  have hdivide : divide a b = ⟨quotient (.int x) (.int y), none⟩ := by
    simp [divide, ha, hb, Number.isZero, hy]
  rw [hdivide, quotient]
  constructor
  · intro h
    rw [if_pos h]
    apply isExact_elim
  · intro h
    rw [if_neg h]

theorem shift_of_nonneg (onWords : Int64 → Int64 → Int64) (ha : a.toNumber? = some (.int x))
    (hb : b.toNumber? = some (.int y)) (hy : 0 ≤ y.toInt) :
    shift onWords a b = int (onWords x y) := by
  simp [shift, ha, hb, Number.toWord, Int64.lt_iff_toInt_lt, hy]

theorem shift_of_neg (onWords : Int64 → Int64 → Int64) (ha : a.toNumber? = some (.int x))
    (hb : b.toNumber? = some (.int y)) (hy : y.toInt < 0) : shift onWords a b = unknown := by
  simp [shift, ha, hb, Number.toWord, Int64.lt_iff_toInt_lt, hy]

theorem width_le_iff : 64 ≤ y ↔ 64 ≤ y.toInt :=
  Int64.le_iff_toInt_le

-- Amounts below the width of a word stay as they are.
theorem toNat_smod_width (hy : 0 ≤ y.toInt) (hlt : y.toInt < 64) :
    (y.toBitVec.smod 64).toNat = y.toInt.toNat := by
  have hmod : (y.toBitVec.smod 64).toInt = y.toInt := by
    rw [BitVec.toInt_smod, Int64.toInt_toBitVec]
    exact Int.fmod_eq_of_lt hy hlt
  rw [BitVec.toInt_eq_toNat_cond] at hmod
  split at hmod <;> omega

theorem toInt_wordShiftLeft (x : Int64) (hy : 0 ≤ y.toInt) :
    (wordShiftLeft x y).toInt = (x.toInt * 2 ^ y.toInt.toNat).bmod (2 ^ 64) := by
  rw [wordShiftLeft]
  by_cases h : 64 ≤ y
  · -- The factor is a multiple of what the product wraps at.
    have hdvd : 2 ^ 64 ∣ 2 ^ y.toInt.toNat :=
      Nat.pow_dvd_pow 2 ((Int.le_toNat hy).mpr (width_le_iff.mp h))
    rw [if_pos h, Int.bmod_eq_zero_of_dvd]
    · rfl
    · exact Int.dvd_mul_of_dvd_right (by exact_mod_cast hdvd)
  · have hlt : y.toInt < 64 := Int.not_le.mp (mt width_le_iff.mpr h)
    rw [if_neg h, ← Int64.toInt_toBitVec, Int64.toBitVec_shiftLeft, BitVec.shiftLeft_eq',
      toNat_smod_width hy hlt, BitVec.toInt_shiftLeft, Nat.shiftLeft_eq, ← Int64.toInt_toBitVec x,
      BitVec.toInt_eq_toNat_bmod, Int.bmod_mul_bmod]
    exact_mod_cast rfl

-- From 64 bits on only the sign is left, which is where division ends up too.
theorem toInt_wordShiftRight (x : Int64) (hy : 0 ≤ y.toInt) :
    (wordShiftRight x y).toInt = x.toInt.fdiv (2 ^ y.toInt.toNat) := by
  have hpos : (0 : Int) < 2 ^ y.toInt.toNat := Int.pow_pos (by decide)
  obtain ⟨hmin, hmax⟩ := Number.fits_toInt x
  rw [wordShiftRight, Int.fdiv_eq_ediv_of_nonneg _ (Int.le_of_lt hpos)]
  by_cases h : 64 ≤ y
  · have hlarge : (2 : Int) ^ 64 ≤ 2 ^ y.toInt.toNat := by
      have hle : 64 ≤ y.toInt.toNat := (Int.le_toNat hy).mpr (width_le_iff.mp h)
      exact_mod_cast Nat.pow_le_pow_right (by decide) hle
    rw [if_pos h]
    by_cases hneg : x.toInt < 0
    · rw [if_pos (Int64.lt_iff_toInt_lt.mpr hneg),
        Int.ediv_eq_neg_one_of_neg_of_le hneg (by omega)]
      rfl
    · rw [if_neg (mt Int64.lt_iff_toInt_lt.mp hneg),
        Int.ediv_eq_zero_of_lt (by omega) (by omega)]
      rfl
  · have hlt : y.toInt < 64 := Int.not_le.mp (mt width_le_iff.mpr h)
    rw [if_neg h, ← Int64.toInt_toBitVec, Int64.toBitVec_shiftRight, BitVec.toInt_sshiftRight',
      toNat_smod_width hy hlt, Int64.toInt_toBitVec, Int.shiftRight_eq_div_pow]
    exact_mod_cast rfl

end Operators

-- What operators do with two integers, whatever values these come from. A remainder that is
-- not zero has the sign of the dividend. Shifts take amounts of any size.
structure FoldsIntegers (a b : Value) (x y : Int64) : Prop where
  add : IsExact (binary .add a b) (x.toInt + y.toInt) (floatOfWord x + floatOfWord y)
  subtract : IsExact (binary .subtract a b) (x.toInt - y.toInt) (floatOfWord x - floatOfWord y)
  multiply : IsExact (binary .multiply a b) (x.toInt * y.toInt) (floatOfWord x * floatOfWord y)
  division : y ≠ 0 → ∃ (q : Int) (r : Int64), q = x.toInt.tdiv y.toInt ∧
    x.toInt = q * y.toInt + r.toInt ∧ r.toInt.natAbs < y.toInt.natAbs ∧
    (r = 0 ∨ r.toInt.sign = x.toInt.sign) ∧ binary .modulo a b = ⟨int r, none⟩ ∧
    (r = 0 → IsExact (binary .divide a b) q (floatOfWord x / floatOfWord y)) ∧
    (r ≠ 0 → binary .divide a b = ⟨float (floatOfWord x / floatOfWord y), none⟩)
  divisionByZero : y = 0 → binary .divide a b = ⟨unknown, some .divisionByZero⟩ ∧
    binary .modulo a b = ⟨unknown, some .moduloByZero⟩
  shift : 0 ≤ y.toInt → ∃ left right : Int64,
    binary .shiftLeft a b = ⟨int left, none⟩ ∧ binary .shiftRight a b = ⟨int right, none⟩ ∧
    left.toInt = (x.toInt * 2 ^ y.toInt.toNat).bmod (2 ^ 64) ∧
    right.toInt = x.toInt.fdiv (2 ^ y.toInt.toNat)
  negativeShift : y.toInt < 0 → binary .shiftLeft a b = ⟨unknown, none⟩ ∧
    binary .shiftRight a b = ⟨unknown, none⟩
  negation : IsExact ⟨unary .minus a, none⟩ (-x.toInt) (-floatOfWord x)

-- Operators on values that count as integers are exact arithmetic as far as the results are
-- words.
theorem integers_fold_exactly {a b : Value} {x y : Int64} (ha : a.CountsAs x)
    (hb : b.CountsAs y) : FoldsIntegers a b x y := by
  replace ha := toNumber?_eq_int_iff.mpr ha
  replace hb := toNumber?_eq_int_iff.mpr hb
  constructor
  case add => exact isExact_arithmetic _ _ ha hb
  case subtract => exact isExact_arithmetic _ _ ha hb
  case multiply => exact isExact_arithmetic _ _ ha hb
  case division =>
    intro hy
    obtain ⟨hr, hless⟩ := toInt_remainder x hy
    obtain ⟨hexact, hinexact⟩ := divide_of_ne_zero ha hb hy
    have hzero : Int64.ofInt (x.toInt.tmod y.toInt) = 0 ↔ x.toInt.tmod y.toInt = 0 := by
      rw [← Int64.toInt_inj, hr]
      rfl
    refine ⟨x.toInt.tdiv y.toInt, Int64.ofInt (x.toInt.tmod y.toInt), rfl, ?_, ?_, ?_,
      modulo_of_ne_zero ha hb hy, fun h => hexact (hzero.mp h), fun h => hinexact (mt hzero.mpr h)⟩
    · rw [hr, Int.tdiv_mul_add_tmod]
    · rwa [hr]
    · rw [hzero, hr]
      exact sign_remainder x.toInt y.toInt
  case divisionByZero =>
    rintro rfl
    constructor
    · simp [binary, divide, hb, Number.isZero]
    · simp [binary, modulo, hb, Number.toWord]
  case shift =>
    intro hy
    refine ⟨wordShiftLeft x y, wordShiftRight x y, ?_, ?_,
      toInt_wordShiftLeft x hy, toInt_wordShiftRight x hy⟩
    · exact congrArg (Outcome.mk · none) (shift_of_nonneg wordShiftLeft ha hb hy)
    · exact congrArg (Outcome.mk · none) (shift_of_nonneg wordShiftRight ha hb hy)
  case negativeShift =>
    intro hy
    constructor
    · exact congrArg (Outcome.mk · none) (shift_of_neg wordShiftLeft ha hb hy)
    · exact congrArg (Outcome.mk · none) (shift_of_neg wordShiftRight ha hb hy)
  case negation =>
    rw [unary, ha]
    apply isExact_elim

-- The only quotient of two words that is no word itself.
theorem integers_fold_exactly_smallest :
    (string " -9223372036854775808").CountsAs Int64.minValue ∧ (int (-1)).CountsAs (-1) ∧
      FoldsIntegers (string " -9223372036854775808") (int (-1)) Int64.minValue (-1) := by
  have hdigits : Number.IsDigits "9223372036854775808".toList :=
    ⟨by decide, List.all_eq_true.mp (by decide)⟩
  have ha : (string " -9223372036854775808").CountsAs Int64.minValue :=
    .string (.blank rfl (.minus hdigits))
  exact ⟨ha, .int (-1), integers_fold_exactly ha (.int (-1))⟩

end PhpLint.Value
