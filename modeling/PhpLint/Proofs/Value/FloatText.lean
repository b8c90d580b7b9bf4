import PhpLint.Proofs.Number.Doubles
import PhpLint.Proofs.Number.Grammar
import PhpLint.Proofs.Number.SignificantDigits
import PhpLint.Value.FloatText

namespace PhpLint

namespace Number.Numeral

def power : Option (Bool × List Char) → ℤ
  | none => 0
  | some (false, digits) => Nat.ofDigitChars 10 digits 0
  | some (true, digits) => -Nat.ofDigitChars 10 digits 0

def magnitude (n : Numeral) : ℚ :=
  let fraction := n.fraction.getD []
  (Nat.ofDigitChars 10 n.whole 0 + Nat.ofDigitChars 10 fraction 0 / 10 ^ fraction.length) *
    10 ^ power n.exponent

-- The number that a numeral denotes, without rounding.
def exactValue (n : Numeral) : ℚ :=
  if n.negative then -n.magnitude else n.magnitude

-- A point has digits behind it, the last of which is not zero. Only in front of a power of ten
-- a single zero may be all of them.
def IsTrimmed (n : Numeral) : Prop :=
  ∀ fraction, n.fraction = some fraction →
    fraction ≠ [] ∧ (fraction.getLast? = some '0' → n.exponent.isSome ∧ fraction = ['0'])

theorem isTrimmed_of_getLast? {n : Numeral} {fraction : List Char} (hne : fraction ≠ [])
    (hlast : fraction.getLast? ≠ some '0') (h : n.fraction = some fraction) : n.IsTrimmed := by
  intro written hwritten
  obtain rfl := Option.some.inj (h.symm.trans hwritten)
  exact ⟨hne, fun hzero => absurd hzero hlast⟩

-- The point only shifts the digits.
theorem magnitude_eq (n : Numeral) :
    n.magnitude = Nat.ofDigitChars 10 (n.whole ++ n.fraction.getD []) 0 *
      10 ^ (power n.exponent - (n.fraction.getD []).length) := by
  have hdigits : Nat.ofDigitChars 10 (n.fraction.getD []) (Nat.ofDigitChars 10 n.whole 0) = _ :=
    Nat.ofDigitChars_eq_ofDigitChars_zero
  rw [magnitude, Nat.ofDigitChars_append, hdigits, zpow_sub₀ (by norm_num), zpow_natCast]
  push_cast
  field_simp

end Number.Numeral

namespace Value

open Number

section Layout

variable {digits : List Char}

theorem ofDigitChars_append_zeros (digits : List Char) (k : ℕ) :
    Nat.ofDigitChars 10 (digits ++ List.replicate k '0') 0 =
      10 ^ k * Nat.ofDigitChars 10 digits 0 := by
  rw [Nat.ofDigitChars_append, Nat.ofDigitChars_replicate_zero]

-- A power of ten is written with its sign, which is read back.
theorem powerText_toDigits (e : ℤ) :
    ∃ power, Numeral.PowerText (some power)
        ('E' :: (if e < 0 then '-' else '+') :: Nat.toDigits 10 e.natAbs) ∧
      Numeral.power (some power) = e := by
  have hdigits := isDigits_toDigits e.natAbs
  split
  · next hneg =>
      refine ⟨(true, Nat.toDigits 10 e.natAbs), .some (.inr rfl) .minus hdigits, ?_⟩
      rw [Numeral.power, Nat.ofDigitChars_ten_toDigits]
      omega
  · next hpos =>
      refine ⟨(false, Nat.toDigits 10 e.natAbs), .some (.inr rfl) .plus hdigits, ?_⟩
      rw [Numeral.power, Nat.ofDigitChars_ten_toDigits]
      omega

-- The digits behind the first one. A single digit gets a zero.
theorem ofDigitChars_take_one (hne : digits ≠ []) (e : ℤ) {fraction : List Char}
    (hfraction : fraction = if digits.length ≤ 1 then ['0'] else digits.drop 1) :
    (Nat.ofDigitChars 10 (digits.take 1 ++ fraction) 0 : ℚ) * 10 ^ (e - fraction.length) =
      Nat.ofDigitChars 10 digits 0 * 10 ^ (e + 1 - digits.length) := by
  obtain ⟨c, digits, rfl⟩ := List.exists_cons_of_ne_nil hne
  split at hfraction
  · next hone =>
      obtain rfl : digits = [] := List.length_eq_zero_iff.mp (by simpa using hone)
      have hzero : Nat.ofDigitChars 10 ([c] ++ ['0']) 0 = 10 ^ 1 * Nat.ofDigitChars 10 [c] 0 :=
        ofDigitChars_append_zeros [c] 1
      have hshift : (10 : ℚ) ^ e = 10 * 10 ^ (e - 1) := by
        rw [mul_comm, ← zpow_add_one₀ (by norm_num), sub_add_cancel]
      rw [hfraction, List.take_one, List.head?_cons, Option.toList_some, hzero]
      simp [hshift, mul_assoc, mul_left_comm]
  · rw [hfraction, List.take_append_drop, List.length_drop, List.length_cons]
    congr 2
    omega

theorem magnitude_power (hne : digits ≠ []) (negative : Bool) {fraction : List Char}
    {power : Bool × List Char} {point : ℤ}
    (hfraction : fraction = if digits.length ≤ 1 then ['0'] else digits.drop 1)
    (hpower : Numeral.power (some power) = point - 1) :
    Numeral.magnitude ⟨negative, digits.take 1, some fraction, some power⟩ =
      Nat.ofDigitChars 10 digits 0 * 10 ^ (point - digits.length) := by
  rw [Numeral.magnitude_eq, hpower, Option.getD_some, ofDigitChars_take_one hne _ hfraction,
    sub_add_cancel]

-- Zeros in front of the digits.
theorem magnitude_fraction (digits : List Char) (negative : Bool) (k : ℕ) :
    Numeral.magnitude ⟨negative, ['0'], some (List.replicate k '0' ++ digits), none⟩ =
      Nat.ofDigitChars 10 digits 0 * 10 ^ (-k - digits.length : ℤ) := by
  have hdigits : Nat.ofDigitChars 10 (['0'] ++ (List.replicate k '0' ++ digits)) 0 =
      Nat.ofDigitChars 10 digits 0 := by
    rw [← List.append_assoc, Nat.ofDigitChars_append, ofDigitChars_append_zeros]
    rfl
  rw [Numeral.magnitude_eq, Option.getD_some, hdigits, List.length_append, List.length_replicate,
    Numeral.power]
  push_cast
  congr 2
  ring

-- Zeros behind the digits.
theorem magnitude_whole (negative : Bool) {whole : ℕ} (hwhole : digits.length ≤ whole) :
    Numeral.magnitude
        ⟨negative, digits ++ List.replicate (whole - digits.length) '0', none, none⟩ =
      Nat.ofDigitChars 10 digits 0 * 10 ^ (whole - digits.length : ℤ) := by
  rw [Numeral.magnitude_eq, Option.getD_none, List.append_nil, ofDigitChars_append_zeros,
    Numeral.power, List.length_nil, Nat.cast_zero, sub_zero, zpow_zero, mul_one,
    ← Nat.cast_sub hwhole, zpow_natCast, mul_comm]
  push_cast
  rfl

theorem magnitude_point (negative : Bool) {whole : ℕ} (hwhole : ¬digits.length ≤ whole) :
    Numeral.magnitude ⟨negative, digits.take whole, some (digits.drop whole), none⟩ =
      Nat.ofDigitChars 10 digits 0 * 10 ^ (whole - digits.length : ℤ) := by
  rw [Numeral.magnitude_eq, Option.getD_some, List.take_append_drop, List.length_drop,
    Numeral.power]
  congr 2
  omega

theorem isTrimmed_drop {n : Numeral} {k : ℕ} (hlast : digits.getLast? ≠ some '0')
    (hk : ¬digits.length ≤ k) (h : n.fraction = some (digits.drop k)) : n.IsTrimmed := by
  refine Numeral.isTrimmed_of_getLast? (by simpa using hk) ?_ h
  rwa [List.getLast?_drop, if_neg hk]

theorem isDigit_zeros (k : ℕ) : ∀ c ∈ List.replicate k '0', c.isDigit = true := by
  intro c hc
  rw [List.eq_of_mem_replicate hc]
  rfl

-- The numeral that is written with a point and possibly a power of ten.
theorem exists_numeral_positioned (hdigits : IsDigits digits) (hlast : digits.getLast? ≠ some '0')
    (point : ℤ) {negative : Bool} {sign : List Char} (hsign : Numeral.SignText negative sign) :
    ∃ n : Numeral, n.negative = negative ∧ n.HasText (sign ++ positioned digits point) ∧
      n.magnitude = Nat.ofDigitChars 10 digits 0 * 10 ^ (point - digits.length) ∧
      n.IsTrimmed ∧ (n.exponent.isSome ↔ point < -3 ∨ 14 < point) := by
  obtain ⟨hne, hall⟩ := hdigits
  have htext : ∀ {whole fraction exponent mantissa power},
      Numeral.MantissaText whole fraction mantissa → Numeral.PowerText exponent power →
      Numeral.HasText ⟨negative, whole, fraction, exponent⟩ (sign ++ (mantissa ++ power)) :=
    fun hmantissa hpower => .intro (List.forall_mem_nil _) hsign hmantissa hpower
  have htake : ∀ k, ∀ c ∈ digits.take k, c.isDigit = true :=
    fun k c hc => hall c (List.mem_of_mem_take hc)
  have hdrop : ∀ k, ∀ c ∈ digits.drop k, c.isDigit = true :=
    fun k c hc => hall c (List.mem_of_mem_drop hc)
  fun_cases positioned digits point with
  | case1 hpower exponent fraction =>
    obtain ⟨power, hpowerText, hvalue⟩ := powerText_toDigits exponent
    have hfraction : ∀ c ∈ fraction, c.isDigit = true := by
      unfold fraction
      split
      · exact isDigit_zeros 1
      · exact hdrop 1
    refine ⟨⟨negative, digits.take 1, some fraction, some power⟩, rfl,
      htext (.point (htake 1) hfraction (.inl (by simp [hne]))) hpowerText,
      magnitude_power hne negative rfl hvalue, ?_, iff_of_true rfl hpower⟩
    by_cases hone : digits.length ≤ 1
    · rintro _ ⟨⟩
      rw [show fraction = ['0'] from if_pos hone]
      exact ⟨List.cons_ne_nil _ _, fun _ => ⟨rfl, rfl⟩⟩
    · exact isTrimmed_drop hlast hone (congrArg some (if_neg hone))
  | case2 hpower hpoint =>
    obtain ⟨k, rfl⟩ : ∃ k : ℕ, point = -k := ⟨(-point).toNat, by omega⟩
    rw [neg_neg, Int.toNat_natCast]
    refine ⟨⟨negative, ['0'], some (List.replicate k '0' ++ digits), none⟩, rfl, ?_,
      magnitude_fraction digits negative k, ?_, iff_of_false Bool.false_ne_true hpower⟩
    · have hmantissa := htext (.point (isDigit_zeros 1)
        (List.forall_mem_append.mpr ⟨isDigit_zeros k, hall⟩) (.inl (by simp))) .none
      simpa using hmantissa
    · refine Numeral.isTrimmed_of_getLast? (by simp [hne]) ?_ rfl
      rwa [List.getLast?_append_of_ne_nil _ hne]
  | case3 hpower hpoint whole hwhole =>
    have hpoint : point = whole := (Int.toNat_of_nonneg (by omega)).symm
    refine ⟨⟨negative, digits ++ List.replicate (whole - digits.length) '0', none, none⟩, rfl,
      ?_, ?_, by simp [Numeral.IsTrimmed], iff_of_false Bool.false_ne_true hpower⟩
    · have hmantissa := htext (.whole ⟨by simp [hne], List.forall_mem_append.mpr
        ⟨hall, isDigit_zeros (whole - digits.length)⟩⟩) .none
      rwa [List.append_nil] at hmantissa
    · rw [magnitude_whole negative hwhole, hpoint]
  | case4 hpower hpoint whole hwhole =>
    have hpoint : point = whole := (Int.toNat_of_nonneg (by omega)).symm
    refine ⟨⟨negative, digits.take whole, some (digits.drop whole), none⟩, rfl,
      ?_, ?_, isTrimmed_drop hlast hwhole rfl, iff_of_false Bool.false_ne_true hpower⟩
    · have hmantissa := htext
        (.point (htake whole) (hdrop whole) (.inr (by simpa using hwhole))) .none
      rwa [List.append_nil] at hmantissa
    · rw [magnitude_point negative hwhole, hpoint]

end Layout

section Digits

theorem significantDigits_eq (n : ℕ) :
    significantDigits n = (Nat.toDigits 10 n).rdropWhile (· == '0') :=
  rfl

theorem exists_toDigits_eq (n : ℕ) :
    ∃ k, Nat.toDigits 10 n = significantDigits n ++ List.replicate k '0' := by
  have hzeros := List.eq_replicate_of_mem (a := '0')
    (l := (Nat.toDigits 10 n).rtakeWhile (· == '0'))
    fun c hc => by simpa using List.mem_rtakeWhile_imp hc
  refine ⟨((Nat.toDigits 10 n).rtakeWhile (· == '0')).length, ?_⟩
  rw [← hzeros, significantDigits_eq, List.rdropWhile_append_rtakeWhile]

theorem getLast?_significantDigits (n : ℕ) : (significantDigits n).getLast? ≠ some '0' := by
  intro hlast
  have hne : significantDigits n ≠ [] := by
    intro hnil
    simp [hnil] at hlast
  have hnot := List.rdropWhile_last_not (· == '0') (Nat.toDigits 10 n) hne
  rw [List.getLast?_eq_some_getLast hne] at hlast
  exact hnot (beq_iff_eq.mpr (Option.some.inj hlast))

variable {n : ℕ}

theorem isDigits_significantDigits (hn : 0 < n) : IsDigits (significantDigits n) := by
  obtain ⟨k, hk⟩ := exists_toDigits_eq n
  constructor
  · intro hnil
    rw [hnil, List.nil_append] at hk
    have hvalue := Nat.ofDigitChars_ten_toDigits (n := n)
    rw [hk, Nat.ofDigitChars_replicate_zero] at hvalue
    omega
  · intro c hc
    apply (isDigits_toDigits n).2
    rw [hk]
    exact List.mem_append_left _ hc

-- The zeros that were removed are restored by a power of ten.
theorem ofDigitChars_significantDigits (n : ℕ) :
    (Nat.ofDigitChars 10 (significantDigits n) 0 : ℚ) *
      10 ^ (digitCount n - (significantDigits n).length : ℤ) = n := by
  obtain ⟨k, hk⟩ := exists_toDigits_eq n
  have hcount : (digitCount n : ℤ) - (significantDigits n).length = k := by
    rw [digitCount, hk, List.length_append, List.length_replicate]
    omega
  have hvalue := ofDigitChars_append_zeros (significantDigits n) k
  rw [← hk, Nat.ofDigitChars_ten_toDigits, mul_comm] at hvalue
  rw [hcount, zpow_natCast]
  exact_mod_cast hvalue.symm

end Digits

section Texts

variable {x : Float} {d : Number.Dyadic}

theorem toList_floatText (hx : Number.Dyadic.ofFloat? x = some d) (hm : 0 < d.mantissa) :
    (floatText x).toList = (if d.negative then ['-'] else []) ++
      positioned (significantDigits (d.toDecimal 14).digits) ((d.toDecimal 14).scale + 14) := by
  rw [floatText, hx]
  simp only [if_neg hm.ne', String.toList_ofList]
  rfl

-- What is written denotes the rounded number, wherever the point is.
theorem exists_numeral_floatText (hx : Number.Dyadic.ofFloat? x = some d) (hm : 0 < d.mantissa) :
    ∃ n : Numeral, n.HasText (floatText x).toList ∧ n.IsTrimmed ∧ n.negative = d.negative ∧
      n.magnitude = (d.toDecimal 14).digits * 10 ^ (d.toDecimal 14).scale ∧
      (n.exponent.isSome ↔
        (d.toDecimal 14).scale + 14 < -3 ∨ 14 < (d.toDecimal 14).scale + 14) := by
  have hrounded : IsRounded 10 14 _ (d.toDecimal 14).digits (d.toDecimal 14).scale :=
    isRounded_toDecimal (by decide) hm
  rw [toList_floatText hx hm]
  generalize (d.toDecimal 14).digits = digits, (d.toDecimal 14).scale = scale at *
  have hpos : 0 < digits := lt_of_lt_of_le (by decide) hrounded.le_digits
  have hcount := digitCount_eq (by decide) hrounded.le_digits hrounded.digits_lt
  have hsign : Numeral.SignText d.negative (if d.negative then ['-'] else []) := by
    cases d.negative
    · exact .none
    · exact .minus
  obtain ⟨n, hnegative, htext, hmagnitude, htrimmed, hexponent⟩ :=
    exists_numeral_positioned (isDigits_significantDigits hpos) (getLast?_significantDigits digits)
      (scale + 14) hsign
  refine ⟨n, htext, htrimmed, hnegative, ?_, hexponent⟩
  calc n.magnitude
      = Nat.ofDigitChars 10 (significantDigits digits) 0 *
          10 ^ ((digitCount digits - (significantDigits digits).length : ℤ) + scale) := by
        rw [hmagnitude, hcount]
        congr 2
        push_cast
        ring
    _ = digits * 10 ^ scale := by
        rw [zpow_add₀ (by norm_num), ← mul_assoc, ofDigitChars_significantDigits]

end Texts

-- A double is written as the decimal of fourteen digits that is nearest to it.
theorem float_text_denotes_rounded {x : Float} {v : ℚ} (hx : exactValue? x = some v) (hv : v ≠ 0) :
    (∃! p : ℕ × ℤ, IsRounded 10 14 |v| p.1 (p.2 - 13)) ∧
    (ofText? (floatText x)).isSome ∧
    ∃ n : Numeral, n.HasText (floatText x).toList ∧ n.IsTrimmed ∧
      ∀ (d : ℕ) (e : ℤ), IsRounded 10 14 |v| d (e - 13) →
        n.exactValue = (if v < 0 then -((d : ℚ) * 10 ^ (e - 13)) else (d : ℚ) * 10 ^ (e - 13)) ∧
        (n.exponent.isSome ↔ e < -4 ∨ 13 < e) := by
  obtain ⟨d, hd, hm, habs, hneg⟩ := exists_dyadic hx hv
  have hrounded : IsRounded 10 14 |v| (d.toDecimal 14).digits (d.toDecimal 14).scale :=
    habs ▸ isRounded_toDecimal (by decide) hm
  have hunique : ∀ (d' : ℕ) (e' : ℤ), IsRounded 10 14 |v| d' (e' - 13) →
      d' = (d.toDecimal 14).digits ∧ e' = (d.toDecimal 14).scale + 13 := by
    intro d' e' h
    obtain ⟨hdigits, hscale⟩ := h.unique (by decide) (by decide) (by decide) hrounded
    exact ⟨hdigits, by omega⟩
  obtain ⟨n, htext, htrimmed, hnegative, hmagnitude, hexponent⟩ := exists_numeral_floatText hd hm
  refine ⟨⟨((d.toDecimal 14).digits, (d.toDecimal 14).scale + 13), ?_, ?_⟩,
    isSome_ofText?_iff.mpr ⟨n, htext.scan_eq⟩, n, htext, htrimmed, ?_⟩
  · simpa using hrounded
  · rintro ⟨d', e'⟩ h
    exact Prod.ext_iff.mpr (hunique d' e' h)
  · intro d' e' h
    obtain ⟨rfl, rfl⟩ := hunique d' e' h
    constructor
    · simp only [Numeral.exactValue, hnegative, hneg, hmagnitude, add_sub_cancel_right]
    · rw [hexponent]
      omega

example : floatText (-0.0000015) = "-1.5E-6" := by decide +kernel

theorem float_text_denotes_rounded_tenth :
    let v : ℚ := 7205759403792794 * 2 ^ (-56 : ℤ)
    exactValue? 0.1 = some v ∧ v ≠ 0 ∧ (ofText? (floatText 0.1)).isSome ∧
      ∃ n : Numeral, n.HasText (floatText 0.1).toList ∧ n.IsTrimmed ∧
        ∀ (d : ℕ) (e : ℤ), IsRounded 10 14 |v| d (e - 13) →
          n.exactValue = (if v < 0 then -((d : ℚ) * 10 ^ (e - 13)) else (d : ℚ) * 10 ^ (e - 13)) ∧
          (n.exponent.isSome ↔ e < -4 ∨ 13 < e) := by
  intro v
  have hparts : parts? 0.1 = some (7205759403792794, -56) := by decide +kernel
  have hx : exactValue? 0.1 = some v := by
    rw [exactValue?, hparts]
    norm_num [v]
  have hv : v ≠ 0 := by norm_num [v]
  obtain ⟨-, hnumeric⟩ := float_text_denotes_rounded hx hv
  exact ⟨hx, hv, hnumeric⟩

end Value

end PhpLint
