import PhpLint.Number.LeadingBits
import PhpLint.Proofs.Number.NearestDouble

namespace PhpLint.Number

open Float.Model UnpackedFloat

section Jamming

-- After two shifts the bits of a number and of its integer part with the last bit set are
-- the same, if the number is no integer.
theorem represents_jammed {n : ℕ} {v : ℚ} (hlow : n < v) (hhigh : v < n + 1) :
    Represents (ExtendedMantissa.ofMantissaAndAccuracy (n ||| 1) .exact >>> 2) (v / 2 ^ 2) := by
  have hhalf : (n ||| 1) / 2 = n / 2 := by
    rw [Nat.or_div_two, Nat.div_eq_of_lt one_lt_two, Nat.or_zero]
  have hlast : (n ||| 1) % 2 = 1 := by
    rw [← Nat.and_one_is_mod, Nat.and_or_distrib_right]
    rcases Nat.mod_two_eq_zero_or_one n with h | h <;> simp [Nat.and_one_is_mod, h]
  have hbits : ExtendedMantissa.ofMantissaAndAccuracy (n ||| 1) .exact >>> 2 =
      ⟨n / 2 / 2, n / 2 % 2 != 0, true⟩ := by
    rw [← hhalf]
    change ExtendedMantissa.mk _ _ ((n ||| 1) % 2 != 0 || (false || false)) = _
    rw [hlast]
    rfl
  have hn : (n : ℚ) = 4 * (n / 2 / 2 : ℕ) + 2 * (n / 2 % 2 : ℕ) + (n % 2 : ℕ) := by
    have hsplit : n = 4 * (n / 2 / 2) + 2 * (n / 2 % 2) + n % 2 := by omega
    exact_mod_cast hsplit
  have hround : (if n / 2 % 2 != 0 then (1 / 2 : ℚ) else 0) = (n / 2 % 2 : ℕ) / 2 := by
    rcases Nat.mod_two_eq_zero_or_one (n / 2) with h | h <;> simp [h]
  have hunit : ((n % 2 : ℕ) : ℚ) ≤ 1 := by
    exact_mod_cast Nat.le_of_lt_succ (Nat.mod_lt n two_pos)
  rw [hbits]
  refine ⟨((n % 2 : ℕ) + (v - n)) / 4, ?_, by linarith, ?_, ?_⟩
  · have hnonneg : (0 : ℚ) ≤ (n % 2 : ℕ) := Nat.cast_nonneg _
    linarith
  · have hnonneg : (0 : ℚ) ≤ (n % 2 : ℕ) := Nat.cast_nonneg _
    simp only [true_iff]
    intro hzero
    linarith
  · rw [hround]
    linarith

-- Which double is nearest to a large number does not depend on how much there is behind its
-- integer part, but only on whether there is something.
theorem IsRounded.of_jammed {n d : ℕ} {k : ℤ} {v : ℚ} (hn : 2 ^ 54 ≤ n) (hlow : n < v)
    (hhigh : v < n + 1) (h : IsRounded 2 53 (n ||| 1 : ℕ) d k) : IsRounded 2 53 v d k := by
  obtain ⟨i, hi⟩ := Nat.exists_eq_add_of_le ((Nat.le_log2 (by omega)).mpr hn)
  obtain ⟨hge, hlt⟩ := (Nat.log2_eq_iff (by omega)).mp hi
  have hjammed : n ||| 1 < 2 ^ (54 + i + 1) :=
    Nat.or_lt_two_pow hlt (Nat.one_lt_two_pow (by omega))
  have hle : n ≤ n ||| 1 := Nat.left_le_or
  have hpower : ∀ j l : ℕ, j + (i + 2) = l →
      ((2 : ℕ) : ℚ) ^ j * ((2 : ℕ) : ℚ) ^ ((i + 2 : ℕ) : ℤ) = (2 ^ l : ℕ) := by
    rintro j _ rfl
    rw [zpow_natCast, ← pow_add]
    push_cast
    rfl
  have hquotient : ∀ x : ℚ, x / 2 ^ 2 / 2 ^ i = x / ((2 : ℕ) : ℚ) ^ ((i + 2 : ℕ) : ℤ) := by
    intro x
    rw [div_div, ← pow_add, add_comm 2 i, zpow_natCast, Nat.cast_two]
  -- Both numbers are rounded by the same bits, to the same place.
  have hv := ((represents_jammed hlow hhigh).shiftRight i).roundsTo
  have hb := (((represents_exact (n ||| 1)).shiftRight 2).shiftRight i).roundsTo
  rw [hquotient] at hv hb
  generalize (_ : ExtendedMantissa).roundedMantissa = q at hv hb
  have hrounded := isRounded_of_roundsTo (b := 2) (p := 53) (by decide) (by decide) (by decide)
    ?_ ?_ hv
  · have hother := isRounded_of_roundsTo (b := 2) (p := 53) (by decide) (by decide) (by decide)
      ?_ ?_ hb
    · obtain ⟨rfl, rfl⟩ := h.unique (by decide) (by decide) (by decide) hother
      exact hrounded
    · rw [hpower 52 (54 + i) (by omega)]
      exact_mod_cast hge.trans hle
    · rw [hpower 53 (54 + i + 1) (by omega)]
      exact_mod_cast hjammed
  · rw [hpower 52 (54 + i) (by omega)]
    exact le_trans (by exact_mod_cast hge) hlow.le
  · rw [hpower 53 (54 + i + 1) (by omega)]
    exact hhigh.trans_le (by exact_mod_cast hlt)

end Jamming

section Powers

variable {d : ℕ} {e : ℤ}

-- A positive double with 53 bits, or an infinity where the exponent is too large.
def normal (d : ℕ) (e : ℤ) (hd : 0 < d) : Float :=
  .ofModel (Float.Model.pack (.finite .positive d e hd))

theorem unpack_of_parts? {x : Float} (h : parts? x = some ((d : ℤ), e)) (hd : 0 < d) :
    x.toModel.unpack = .finite .positive d e hd := by
  rw [parts?] at h
  cases hx : x.toModel.unpack with
  | notANumber | infinity =>
      rw [hx] at h
      cases h
  | zero sign =>
      rw [hx, partsOf?, Option.some.injEq, Prod.mk.injEq] at h
      omega
  | finite sign m k hm =>
      rw [hx, partsOf?, Option.some.injEq, Prod.mk.injEq] at h
      obtain ⟨hmantissa, rfl⟩ := h
      cases sign with
      | positive =>
          have hpos : (m : ℤ) = d := hmantissa
          obtain rfl : m = d := by exact_mod_cast hpos
          rfl
      | negative =>
          have hneg : -(m : ℤ) = d := hmantissa
          omega

theorem unpack_normal (hlow : 2 ^ 52 ≤ d) (hhigh : d < 2 ^ 53) (hd : 0 < d) (hmin : -1074 ≤ e) :
    (normal d e hd).toModel.unpack =
      if e ≤ 971 then .finite .positive d e hd else .infinity .positive := by
  split
  · next hmax => exact unpack_of_parts? (parts?_pack hlow hhigh hd hmin hmax) hd
  · next hmax =>
      rw [normal, pack_overflow hlow hhigh hd (by omega)]
      rfl

theorem normal_of_lt (hlow : 2 ^ 52 ≤ d) (hhigh : d < 2 ^ 53) (hd : 0 < d) (he : 971 < e) :
    normal d e hd = .ofModel (Float.Model.pack (.infinity .positive)) :=
  pack_overflow hlow hhigh hd he

def twoPower (k : ℕ) : Float :=
  normal (2 ^ 52) (k - 52) (Nat.two_pow_pos 52)

-- The product is exact: it has the bits of the mantissa and 52 zeros behind them.
theorem normal_mul_twoPower (hlow : 2 ^ 52 ≤ d) (hhigh : d < 2 ^ 53) (hd : 0 < d) (he : -52 ≤ e)
    (k : ℕ) : normal d e hd * twoPower k = normal d (e + k) hd := by
  have hpower : 2 ^ 52 < 2 ^ 53 := by decide
  have hmul : normal d e hd * twoPower k = .ofModel (Float.Model.pack (UnpackedFloat.mul
      Format.binary64 (normal d e hd).toModel.unpack (twoPower k).toModel.unpack)) := rfl
  rw [hmul, unpack_normal hlow hhigh hd (by omega), twoPower,
    unpack_normal le_rfl hpower (Nat.two_pow_pos 52) (by omega)]
  by_cases hfirst : e ≤ 971
  · by_cases hsecond : (k : ℤ) - 52 ≤ 971
    · obtain ⟨d', k', hd', hrounded, -, hround⟩ := exists_roundWithAccuracy .positive
        (le_trans (Nat.le_mul_of_pos_left _ hd) le_rfl : 2 ^ 52 ≤ d * 2 ^ 52)
        (by omega : -1074 ≤ e + ((k : ℤ) - 52))
      have hvalue : ((d * 2 ^ 52 : ℕ) : ℚ) * 2 ^ (e + ((k : ℤ) - 52)) =
          d * ((2 : ℕ) : ℚ) ^ (e + k) := by
        have hsplit : e + (k : ℤ) = (52 : ℕ) + (e + ((k : ℤ) - 52)) := by
          push_cast
          ring
        rw [hsplit, zpow_add₀ (by norm_num : ((2 : ℕ) : ℚ) ≠ 0), zpow_natCast]
        push_cast
        ring
      rw [hvalue] at hrounded
      obtain ⟨rfl, rfl⟩ := hrounded.unique (by decide) (by decide) (by decide)
        (isRounded_self hlow hhigh)
      rw [if_pos hfirst, if_pos hsecond, normal, ← hround]
      rfl
    · rw [if_pos hfirst, if_neg hsecond, normal_of_lt hlow hhigh hd (by omega)]
      rfl
  · rw [if_neg hfirst, normal_of_lt hlow hhigh hd (by omega)]
    split <;> rfl

theorem twoPower_mul (i k : ℕ) : twoPower i * twoPower k = twoPower (i + k) := by
  have hproduct := normal_mul_twoPower (d := 2 ^ 52) (e := i - 52) le_rfl (by decide)
    (Nat.two_pow_pos 52) (by omega) k
  have hexponent : (i : ℤ) - 52 + k = (i + k : ℕ) - 52 := by
    push_cast
    ring
  rwa [hexponent] at hproduct

-- By induction on the steps, in each of which the base is squared.
theorem powerFrom_twoPower (i k n : ℕ) :
    powerFrom (twoPower i) (twoPower k) n = twoPower (i + k * n) := by
  induction n using Nat.strongRecOn generalizing i k with
  | ind n ih =>
      have hodd : (if n % 2 = 1 then twoPower i * twoPower k else twoPower i) =
          twoPower (i + k * (n % 2)) := by
        rcases Nat.mod_two_eq_zero_or_one n with h | h <;> simp [h, twoPower_mul]
      have hn : n = n % 2 + 2 * (n / 2) := (Nat.mod_add_div n 2).symm
      rw [powerFrom, hodd, twoPower_mul]
      split
      · next hlast =>
          rw [hlast, mul_zero, add_zero] at hn
          rw [← hn]
      · next hmore =>
          rw [ih (n / 2) (by omega)]
          congr 1
          conv_rhs => rw [hn]
          ring

theorem integerPower_two {e : ℕ} (he : e < 2 ^ 31) :
    integerPower 2 (Int32.ofNat e) = twoPower e := by
  have hone : (1 : Float) = twoPower 0 := by decide +kernel
  have htwo : (2 : Float) = twoPower 1 := by decide +kernel
  have hint : (Int32.ofNat e).toInt = e := Int32.toInt_ofNat_of_lt he
  have hsign : ¬Int32.ofNat e < 0 := by
    rw [Int32.lt_iff_toInt_lt, hint]
    exact not_lt.mpr (Int.natCast_nonneg e)
  simp only [integerPower, hint, Int.natAbs_natCast, if_neg hsign]
  rw [hone, htwo, powerFrom_twoPower, zero_add, one_mul]

end Powers

section Leading

variable {width n e : ℕ} {leading : LeadingBits}

theorem le_clz_iff {w : ℕ} (hw : w ≤ 128) (x : BitVec 128) :
    w ≤ x.clz.toNat ↔ x.toNat < 2 ^ (128 - w) := by
  constructor
  · intro h
    exact BitVec.toNat_lt_two_pow_sub_clz.trans_le (Nat.pow_le_pow_right two_pos (by omega))
  · intro hx
    by_contra hclz
    have hne : x ≠ 0 := by
      rintro rfl
      exact hclz hw
    have hlow := BitVec.two_pow_sub_clz_le_toNat_of_ne_zero (by decide) hne
    exact absurd (hlow.trans_lt hx) (not_lt.mpr (Nat.pow_le_pow_right two_pos (by omega)))

-- The leading bits of a number, of which some are left. As soon as one is, there is no room
-- for another digit.
structure Leads (width n e : ℕ) (leading : LeadingBits) : Prop where
  bits : leading.bits.toNat = n / 2 ^ e
  isInexact : leading.isInexact = true ↔ n % 2 ^ e ≠ 0
  exponent : leading.exponent = Int32.ofNat e
  full : 0 < e → 2 ^ (128 - width) ≤ n / 2 ^ e

theorem leads_empty : Leads width 0 0 {} where
  bits := rfl
  isInexact := by simp
  exponent := rfl
  full h := absurd h (lt_irrefl 0)

theorem Leads.room (h : Leads width n e leading) (hwidth : width ≤ 128) :
    width ≤ leading.bits.clz.toNat ↔ n / 2 ^ e < 2 ^ (128 - width) := by
  rw [le_clz_iff hwidth, h.bits]

theorem toNat_pushed {x : BitVec 128} {digit : ℕ} (hwidth : width ≤ 128)
    (hx : x.toNat < 2 ^ (128 - width)) (hdigit : digit < 2 ^ width) :
    (x <<< width ||| BitVec.ofNat 128 digit).toNat = 2 ^ width * x.toNat + digit := by
  have hshifted : x.toNat <<< width < 2 ^ 128 :=
    calc x.toNat <<< width = x.toNat * 2 ^ width := Nat.shiftLeft_eq _ _
      _ < 2 ^ (128 - width) * 2 ^ width := Nat.mul_lt_mul_of_pos_right hx (Nat.two_pow_pos width)
      _ = 2 ^ 128 := by rw [← pow_add, Nat.sub_add_cancel hwidth]
  have hsmall : digit < 2 ^ 128 :=
    hdigit.trans_le (Nat.pow_le_pow_right two_pos hwidth)
  rw [BitVec.toNat_or, BitVec.toNat_shiftLeft, BitVec.toNat_ofNat, Nat.mod_eq_of_lt hshifted,
    Nat.mod_eq_of_lt hsmall, Nat.shiftLeft_eq, mul_comm, Nat.two_pow_add_eq_or_of_lt hdigit]

theorem Leads.push (h : Leads width n e leading) (hwidth : width ≤ 128) {digit : ℕ}
    (hdigit : digit < 2 ^ width) :
    ∃ e' ≤ e + width, Leads width (2 ^ width * n + digit) e' (leading.push width digit) := by
  have hroom := h.room hwidth
  by_cases hbits : n / 2 ^ e < 2 ^ (128 - width)
  · -- Nothing is left yet.
    have he : e = 0 := by
      by_contra he
      exact absurd (h.full (Nat.pos_of_ne_zero he)) (not_le.mpr hbits)
    subst he
    refine ⟨0, Nat.zero_le _, ?_⟩
    rw [LeadingBits.push, if_pos (hroom.mpr hbits)]
    have hvalue := h.bits
    rw [pow_zero, Nat.div_one] at hvalue hbits
    refine ⟨?_, ?_, h.exponent, fun h => absurd h (lt_irrefl 0)⟩
    · rw [toNat_pushed hwidth (hvalue ▸ hbits) hdigit, hvalue, pow_zero, Nat.div_one]
    · simpa [Nat.mod_one] using h.isInexact
  · refine ⟨e + width, le_rfl, ?_⟩
    rw [LeadingBits.push, if_neg (mt hroom.mp hbits)]
    have hpos : 0 < 2 ^ width := Nat.two_pow_pos width
    have hquotient : (2 ^ width * n + digit) / 2 ^ (e + width) = n / 2 ^ e := by
      rw [pow_add, mul_comm (2 ^ e), ← Nat.div_div_eq_div_mul, Nat.mul_add_div hpos,
        Nat.div_eq_of_lt hdigit, add_zero]
    have hremainder : (2 ^ width * n + digit) % 2 ^ (e + width) =
        digit + 2 ^ width * (n % 2 ^ e) := by
      rw [pow_add, mul_comm (2 ^ e), Nat.mod_mul, Nat.mul_add_mod, Nat.mod_eq_of_lt hdigit,
        Nat.mul_add_div hpos, Nat.div_eq_of_lt hdigit, add_zero]
    refine ⟨?_, ?_, ?_, fun _ => ?_⟩
    · rw [hquotient, h.bits]
    · rw [hremainder, Bool.or_eq_true, h.isInexact, bne_iff_ne]
      rcases Nat.eq_zero_or_pos (n % 2 ^ e) with hzero | hsome
      · simp [hzero]
      · have hmore := Nat.mul_pos hpos hsome
        simp only [ne_eq, hsome.ne', not_false_eq_true, true_or, true_iff]
        omega
    · rw [h.exponent, Int32.ofNat_add]
    · rw [hquotient]
      exact not_lt.mp hbits

-- By induction on the digits, behind any others.
theorem Leads.foldl_push (hwidth : width ≤ 128) {ds : List ℕ} (hds : ∀ d ∈ ds, d < 2 ^ width)
    (h : Leads width n e leading) :
    ∃ e' ≤ e + width * ds.length,
      Leads width (ds.foldl (fun n d => 2 ^ width * n + d) n) e'
        (ds.foldl (LeadingBits.push width) leading) := by
  induction ds generalizing n e leading with
  | nil => exact ⟨e, by simp, h⟩
  | cons d ds ih =>
      obtain ⟨hd, hds⟩ := List.forall_mem_cons.mp hds
      obtain ⟨e₁, he₁, h₁⟩ := h.push hwidth hd
      obtain ⟨e₂, he₂, h₂⟩ := ih hds h₁
      refine ⟨e₂, ?_, h₂⟩
      rw [List.length_cons, Nat.mul_succ]
      omega

-- The bits that are converted are those of the number at its place, the last of them set
-- for the bits that are left.
theorem Leads.isRounded (h : Leads width n e leading) (hn : 2 ^ 54 ≤ n / 2 ^ e) {d : ℕ} {k : ℤ}
    (hrounded : IsRounded 2 53
      ((leading.bits ||| (BitVec.ofBool leading.isInexact).setWidth 128).toNat : ℕ) d k) :
    IsRounded 2 53 n d (k + e) := by
  have hvalue : (n : ℚ) = n / 2 ^ e * (2 : ℕ) ^ (e : ℤ) := by
    rw [zpow_natCast, Nat.cast_two, div_mul_cancel₀]
    positivity
  have hsplit : (n : ℚ) / 2 ^ e = (n / 2 ^ e : ℕ) + (n % 2 ^ e : ℕ) / 2 ^ e := by
    have hdiv : ((2 ^ e * (n / 2 ^ e) + n % 2 ^ e : ℕ) : ℚ) = n := by
      rw [Nat.div_add_mod]
    rw [div_eq_iff (by positivity), add_mul, div_mul_cancel₀ _ (by positivity), ← hdiv]
    push_cast
    ring
  have hmod : ((n % 2 ^ e : ℕ) : ℚ) / 2 ^ e < 1 := by
    rw [div_lt_one (by positivity)]
    exact_mod_cast Nat.mod_lt n (Nat.two_pow_pos e)
  rw [hvalue]
  apply IsRounded.scale (by decide)
  by_cases hexact : n % 2 ^ e = 0
  · have hinexact : leading.isInexact = false := by
      rw [← Bool.not_eq_true, h.isInexact]
      exact not_not.mpr hexact
    rw [hsplit, hexact, Nat.cast_zero, zero_div, add_zero, ← h.bits]
    simpa [hinexact] using hrounded
  · rw [hsplit]
    have hpos : (0 : ℚ) < (n % 2 ^ e : ℕ) / 2 ^ e := by
      have := Nat.pos_of_ne_zero hexact
      positivity
    apply IsRounded.of_jammed hn (by linarith) (by linarith)
    rw [BitVec.toNat_or, h.bits, h.isInexact.mpr hexact] at hrounded
    exact hrounded

theorem Leads.isNearestDouble (h : Leads width n e leading) (hwidth : width ≤ 4)
    (hn : 2 ^ 63 ≤ n) (he : e < 2 ^ 31) : IsNearestDouble n leading.toFloat := by
  have hbits : 2 ^ 54 ≤ n / 2 ^ e := by
    rcases Nat.eq_zero_or_pos e with rfl | hpos
    · rw [pow_zero, Nat.div_one]
      omega
    · exact le_trans (Nat.pow_le_pow_right two_pos (by omega)) (h.full hpos)
  have hlarge : 2 ^ 53 ≤
      (leading.bits ||| (BitVec.ofBool leading.isInexact).setWidth 128).toNat := by
    rw [BitVec.toNat_or, h.bits]
    exact le_trans (by omega) Nat.left_le_or
  obtain ⟨d, k, hd, hrounded, hle, hfloat⟩ := exists_ofScientific hlarge
  have hfinal := h.isRounded hbits hrounded
  have hproduct := normal_mul_twoPower hrounded.le_digits hrounded.digits_lt hd
    (by omega : -52 ≤ k) e
  have heq : leading.toFloat = normal d (k + e) hd := by
    rw [← hproduct, normal, ← hfloat, LeadingBits.toFloat, h.exponent, integerPower_two he]
    rfl
  rw [heq]
  exact isNearestDouble_pack hfinal (by omega) hd

end Leading

end PhpLint.Number
