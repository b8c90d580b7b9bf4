import Mathlib
import PhpLint.Proofs.Number.Rounding
import PhpLint.Number.Binary64

-- The lemmas on the bits of doubles come with the whole library only.

namespace PhpLint.Number

open Float.Model

-- The mantissa with its sign and the exponent of a finite double.
def partsOf? : UnpackedFloat → Option (ℤ × ℤ)
  | .zero _ => some (0, -1074)
  | .finite sign m e _ => some (sign.apply m, e)
  | .infinity _ | .notANumber => none

def parts? (x : Float) : Option (ℤ × ℤ) :=
  partsOf? x.toModel.unpack

-- The number that a finite double is.
def exactValue? (x : Float) : Option ℚ :=
  (parts? x).map fun (m, e) => m * 2 ^ e

section Bits

variable (b : BitVec Format.binary64.numBits)

theorem toNat_unpackMantissa : (UnpackedFloat.unpackMantissa b).toNat = b.toNat % 2 ^ 52 := by
  rw [UnpackedFloat.unpackMantissa_def, BitVec.extractLsb'_toNat, Nat.shiftRight_zero]

theorem toNat_unpackExponent :
    (UnpackedFloat.unpackExponent b).toNat = (b.toNat >>> 52) % 2 ^ 11 := by
  rw [UnpackedFloat.unpackExponent_def, BitVec.extractLsb'_toNat]

theorem toNat_unpackSign : (UnpackedFloat.unpackSign b).toNat = b.toNat >>> 63 := by
  have hb : b.toNat < 2 ^ 64 := b.isLt
  have hbit : b.toNat >>> 63 < 2 ^ 1 := by
    rw [Nat.shiftRight_eq_div_pow]
    omega
  rw [UnpackedFloat.unpackSign_def, BitVec.extractLsb'_toNat]
  exact Nat.mod_eq_of_lt hbit

theorem apply_unpackSign (m : ℕ) :
    (UnpackedFloat.Sign.ofBitVec (UnpackedFloat.unpackSign b)).apply m =
      if b.toNat >>> 63 = 1 then -(m : ℤ) else m := by
  have hs := toNat_unpackSign b
  obtain hzero | hone := BitVec.eq_zero_or_eq_one (UnpackedFloat.unpackSign b)
  · rw [hzero, BitVec.toNat_ofNat] at hs
    rw [hzero, ← hs]
    rfl
  · rw [hone, BitVec.toNat_ofNat] at hs
    rw [hone, ← hs]
    rfl

theorem toNat_implicit (m : BitVec 52) : (BitVec.ofNat 1 1 ++ m).toNat = m.toNat + 2 ^ 52 := by
  rw [BitVec.toNat_append, ← Nat.shiftLeft_add_eq_or_of_lt m.isLt]
  simp [Nat.shiftLeft_eq, add_comm]

theorem eq_negOne_iff (e : BitVec 11) : e = -BitVec.ofNat 11 1 ↔ e.toNat = 2047 := by
  rw [BitVec.toNat_eq]
  rfl

theorem partsOf?_unpack :
    partsOf? (UnpackedFloat.unpack Format.binary64 b) =
      let sign := UnpackedFloat.Sign.ofBitVec (UnpackedFloat.unpackSign b)
      let exponent := (UnpackedFloat.unpackExponent b).toNat
      let mantissa := (UnpackedFloat.unpackMantissa b).toNat
      if exponent = 2047 then none
      else if exponent = 0 then some (sign.apply mantissa, (-1074 : ℤ))
      else some (sign.apply (mantissa + 2 ^ 52 : ℕ), (exponent : ℤ) - 1075) := by
  simp only [← toNat_implicit]
  fun_cases UnpackedFloat.unpack Format.binary64 b with
  | case1 mantissa exponent sign s hinfinite hzero =>
    rw [if_pos ((eq_negOne_iff _).mp hinfinite), partsOf?]
  | case2 mantissa exponent hinfinite hzero =>
    rw [if_pos ((eq_negOne_iff _).mp hinfinite), partsOf?]
  | case3 mantissa exponent sign s hfinite hleast hzero =>
    have hm : UnpackedFloat.unpackMantissa b = BitVec.ofNat 52 0 := hzero
    have he : UnpackedFloat.unpackExponent b = BitVec.ofNat 11 0 := hleast
    rw [if_neg (mt (eq_negOne_iff _).mpr hfinite), hm, he, partsOf?]
    cases UnpackedFloat.Sign.ofBitVec (UnpackedFloat.unpackSign b) <;> rfl
  | case4 mantissa exponent e sign s hfinite hleast hzero =>
    have hnone : (UnpackedFloat.unpackExponent b).toNat = 0 := congrArg BitVec.toNat hleast
    rw [if_neg (mt (eq_negOne_iff _).mpr hfinite), if_pos hnone, partsOf?]
    have hexponent : e + 1 = -1074 := by
      simp only [e, exponent, hnone]
      rfl
    rw [hexponent]
  | case5 mantissa exponent e sign s hfinite hleast =>
    have hsome : (UnpackedFloat.unpackExponent b).toNat ≠ 0 :=
      mt (fun h => BitVec.eq_of_toNat_eq h) hleast
    rw [if_neg (mt (eq_negOne_iff _).mpr hfinite), if_neg hsome, partsOf?]
    rfl

end Bits

-- The parts are read off the bits.
theorem parts?_eq (x : Float) :
    parts? x = (Dyadic.ofFloat? x).map fun d =>
      (if d.negative then -(d.mantissa : ℤ) else d.mantissa, d.exponent) := by
  rw [parts?, Float.Model.unpack, partsOf?_unpack, Dyadic.ofFloat?]
  simp only [apply_unpackSign, toNat_unpackMantissa, toNat_unpackExponent, Nat.one_shiftLeft,
    beq_iff_eq, apply_ite (Option.map _), Option.map_none, Option.map_some]
  rfl

-- No double has more than 53 bits.
theorem exists_parts {x : Float} {v : ℚ} (h : exactValue? x = some v) :
    ∃ m e : ℤ, |m| < 2 ^ 53 ∧ v = m * 2 ^ e := by
  rw [exactValue?, parts?_eq, Option.map_map, Option.map_eq_some_iff] at h
  obtain ⟨d, hd, rfl⟩ := h
  have hmantissa : d.mantissa < 2 ^ 53 := by
    have hfraction : x.toBits.toNat % (1 <<< 52) < 1 <<< 52 := Nat.mod_lt _ (by decide)
    rw [Dyadic.ofFloat?] at hd
    split at hd
    · cases hd
    · split at hd <;> cases hd
      · exact hfraction.trans (by decide)
      · exact Nat.add_lt_add_right hfraction (1 <<< 52)
  refine ⟨_, _, ?_, rfl⟩
  split
  · rw [abs_neg]
    exact_mod_cast hmantissa
  · exact_mod_cast hmantissa

theorem exists_dyadic {x : Float} {v : ℚ} (h : exactValue? x = some v) (hv : v ≠ 0) :
    ∃ d, Dyadic.ofFloat? x = some d ∧ 0 < d.mantissa ∧ |v| = d.mantissa * 2 ^ d.exponent ∧
      (d.negative = true ↔ v < 0) := by
  rw [exactValue?, parts?_eq, Option.map_map, Option.map_eq_some_iff] at h
  obtain ⟨d, hd, rfl⟩ := h
  simp only [Function.comp_apply] at hv ⊢
  have hm : 0 < d.mantissa := by
    refine Nat.pos_of_ne_zero fun hzero => hv ?_
    simp [hzero]
  have hpos : (0 : ℚ) < d.mantissa * 2 ^ d.exponent := by positivity
  refine ⟨d, hd, hm, ?_⟩
  cases d.negative
  · simp [hpos.le]
  · simp [neg_mul, hpos]

end PhpLint.Number
