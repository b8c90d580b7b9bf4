import PhpLint.Number.Numeral
import PhpLint.Proofs.Number.Doubles

namespace PhpLint.Number

open Float.Model

section Doubles

theorem compare_sign_swap (s t : UnpackedFloat.Sign) : (compare s t).swap = compare t s := by
  cases s <;> cases t <;> rfl

theorem compare_magnitude_swap (e f : Int) (m n : Nat) :
    ((compare e f).then (compare m n)).swap = (compare f e).then (compare n m) := by
  rw [Ordering.swap_then, Int.compare_swap, Nat.compare_swap]

-- Doubles that are not comparable are so in both directions.
theorem compare_unpacked_swap (u v : UnpackedFloat) :
    v.compare u = (u.compare v).map Ordering.swap := by
  cases u with
  | notANumber => cases v <;> rfl
  | infinity s =>
      cases v with
      | infinity t => exact congrArg some (compare_sign_swap s t).symm
      | _ => cases s <;> rfl
  | zero s =>
      cases v with
      | infinity t | finite t => cases t <;> rfl
      | _ => rfl
  | finite s m e hm =>
      cases v with
      | finite t n f hn =>
          cases s <;> cases t <;> simp [UnpackedFloat.compare, ← compare_magnitude_swap e f m n]
      | infinity t => cases t <;> rfl
      | zero t => cases s <;> rfl
      | notANumber => rfl

theorem compare_unpacked_self {u : UnpackedFloat} (h : u.isNaN = false) :
    u.compare u = some .eq := by
  cases u with
  | notANumber => cases h
  | infinity s => cases s <;> rfl
  | zero s => rfl
  | finite s m e hm => cases s <;> simp [UnpackedFloat.compare]

theorem lt_iff_compare (x y : Float) : x < y ↔ x.toModel.compare y.toModel = some .lt := by
  change decide (x.toModel.lt y.toModel = true) = true ↔ _
  rw [decide_eq_true_iff]
  exact beq_iff_eq

theorem beq_iff_compare (x y : Float) :
    (x == y) = true ↔ x.toModel.compare y.toModel = some .eq :=
  beq_iff_eq (α := Option Ordering)

-- Three tests that are made one after the other give the order of two doubles.
theorem compare_of_tests (x y : Float) :
    (if x < y then some .lt else if x == y then some .eq else if y < x then some .gt else none) =
      x.toModel.compare y.toModel := by
  have hswap : y.toModel.compare x.toModel = (x.toModel.compare y.toModel).map Ordering.swap :=
    compare_unpacked_swap _ _
  simp only [lt_iff_compare, beq_iff_compare, hswap]
  rcases x.toModel.compare y.toModel with _ | _ | _ | _ <;> rfl

end Doubles

theorem compare?_swap (a b : Number) : b.compare? a = (a.compare? b).map Ordering.swap := by
  cases a with
  | int n =>
      cases b with
      | int m => simp [compare?, Int.compare_swap]
      | float y =>
          simp only [compare?, compare_of_tests]
          exact compare_unpacked_swap _ _
  | float x =>
      simp only [compare?, compare_of_tests]
      exact compare_unpacked_swap _ _

-- Only the double that is not a number differs from itself.
theorem compare?_self {a : Number} (h : ∀ x, a = .float x → x.isNaN = false) :
    a.compare? a = some .eq := by
  cases a with
  | int n => simp [compare?]
  | float x =>
      simp only [compare?, compare_of_tests]
      exact compare_unpacked_self (h x rfl)

theorem compare?_float_of_beq {x y : Float} (h : (x == y) = true) :
    (float x).compare? (float y) = some .eq := by
  simp only [compare?, compare_of_tests]
  exact (beq_iff_compare x y).mp h

section Packing

variable (spec : Format)

theorem ofNat_ne_neg_one {w n : Nat} (h : n + 1 < 2 ^ w) :
    BitVec.ofNat w n ≠ -BitVec.ofNat w 1 := by
  intro he
  have hn := congrArg BitVec.toNat he
  rw [BitVec.toNat_ofNat, Nat.mod_eq_of_lt (by omega), BitVec.neg_one_eq_allOnes,
    BitVec.toNat_allOnes] at hn
  omega

-- A number is packed with another exponent than the one of infinities, or without a
-- fraction.
theorem exists_pack_eq {u : UnpackedFloat} (hu : u.isNaN = false) :
    ∃ s e m, UnpackedFloat.pack spec u = UnpackedFloat.packComponents spec s e m ∧
      (e = -BitVec.ofNat spec.exponentBits 1 →
        m = BitVec.ofNat spec.mantissaBitsWithoutImplicit 0) := by
  have hzero : 0 + 1 < 2 ^ spec.exponentBits := Nat.one_lt_two_pow (Nat.ne_of_gt spec.he)
  fun_cases UnpackedFloat.pack spec u with
  | case1 => cases hu
  | case2 s => exact ⟨s, _, 0, rfl, fun _ => rfl⟩
  | case3 s => exact ⟨s, _, 0, rfl, fun _ => rfl⟩
  | case4 s => exact ⟨s, _, 0, rfl, fun _ => rfl⟩
  | case5 s m e _ _ biased hbiased =>
      exact ⟨s, _, _, rfl, fun he => absurd he (ofNat_ne_neg_one (Nat.lt_of_not_le hbiased))⟩
  | case6 s m e _ _ biased hbiased =>
      exact ⟨s, _, _, rfl, fun he => absurd he (ofNat_ne_neg_one hzero)⟩

theorem isNaN_unpack {b : BitVec spec.numBits}
    (h : UnpackedFloat.unpackExponent b = -BitVec.ofNat spec.exponentBits 1 →
      UnpackedFloat.unpackMantissa b = BitVec.ofNat spec.mantissaBitsWithoutImplicit 0) :
    (UnpackedFloat.unpack spec b).isNaN = false := by
  simp only [UnpackedFloat.unpack]
  split
  · next he =>
      rw [if_pos (h he)]
      rfl
  · split
    · split <;> rfl
    · rfl

theorem isNaN_pack {u : UnpackedFloat} (hu : u.isNaN = false) : (pack u).isNaN = false := by
  obtain ⟨s, e, m, hpack, hm⟩ := exists_pack_eq Format.binary64 hu
  apply isNaN_unpack
  change UnpackedFloat.unpackExponent (UnpackedFloat.pack _ u) = _ →
    UnpackedFloat.unpackMantissa (UnpackedFloat.pack _ u) = _
  rw [hpack, UnpackedFloat.unpackExponent_packComponents,
    UnpackedFloat.unpackMantissa_packComponents]
  exact hm

end Packing

section Rounding

variable (spec : Format)

theorem isNaN_roundWithAccuracy (s : UnpackedFloat.Sign) (m : Nat) (e : Int)
    (accuracy : UnpackedFloat.Accuracy) :
    (UnpackedFloat.roundWithAccuracy spec s m e accuracy).isNaN = false := by
  simp only [UnpackedFloat.roundWithAccuracy]
  split <;> rfl

theorem isNaN_ofNat (n : Nat) : (UnpackedFloat.ofNat spec n).isNaN = false := by
  simp only [UnpackedFloat.ofNat, UnpackedFloat.ofInt, UnpackedFloat.normalize]
  split
  · apply isNaN_roundWithAccuracy
  · rfl
  · apply isNaN_roundWithAccuracy

-- Neither a zero nor an infinity.
def isProper : UnpackedFloat → Bool
  | .finite .. => true
  | _ => false

theorem isNaN_mul {u v : UnpackedFloat} (hu : u.isNaN = false) (hv : isProper v = true) :
    (UnpackedFloat.mul spec u v).isNaN = false := by
  cases v with
  | finite =>
      cases u with
      | notANumber => cases hu
      | finite => apply isNaN_roundWithAccuracy
      | _ => rfl
  | _ => cases hv

theorem isNaN_div {u v : UnpackedFloat} (hu : u.isNaN = false) (hv : isProper v = true) :
    (UnpackedFloat.div spec u v).isNaN = false := by
  cases v with
  | finite =>
      cases u with
      | notANumber => cases hu
      | finite => apply isNaN_roundWithAccuracy
      | _ => rfl
  | _ => cases hv

theorem isNaN_unpacked_ofScientific (m : Nat) (e : Int) :
    (UnpackedFloat.ofScientific spec m e).isNaN = false := by
  simp only [UnpackedFloat.ofScientific]
  repeat' split
  · rfl
  · rfl
  · rfl
  · exact isNaN_mul spec rfl rfl
  · exact isNaN_div spec rfl rfl

end Rounding

section Numerals

theorem isProper_powerOfTen (e : Nat) (he : e < Float.exactlyRepresentablePowersOfTen.size) :
    isProper Float.exactlyRepresentablePowersOfTen[e].toModel.unpack = true := by
  have hall : Float.exactlyRepresentablePowersOfTen.all
      (fun x => isProper x.toModel.unpack) = true := by decide +kernel
  exact Array.all_eq_true.mp hall e he

theorem isNaN_ofScientific (m : Nat) (negative : Bool) (e : Nat) :
    (Float.ofScientific m negative e).isNaN = false := by
  rw [Float.ofScientific]
  split
  · next h =>
      have hten := isProper_powerOfTen e (Nat.lt_succ_of_le h.2)
      have hm : m.toUInt64.toFloat.isNaN = false := isNaN_pack (isNaN_ofNat _ _)
      cases negative with
      | true => exact isNaN_pack (isNaN_div _ hm hten)
      | false => exact isNaN_pack (isNaN_mul _ hm hten)
  · exact isNaN_pack (isNaN_unpacked_ofScientific _ _ _)

theorem isNaN_neg {x : Float} (h : x.isNaN = false) : (-x).isNaN = false := by
  have hu : x.toModel.unpack.isNaN = false := h
  apply isNaN_pack
  cases hx : x.toModel.unpack with
  | notANumber =>
      rw [hx] at hu
      cases hu
  | _ => rfl

theorem isNaN_decimal (d : Decimal) : d.toFloat.isNaN = false := by
  rw [Decimal.toFloat]
  split
  · apply isNaN_ofScientific
  · simp only []
    split
    · exact isNaN_pack rfl
    · split
      · apply isNaN_ofScientific
      · split <;> apply isNaN_ofScientific

-- A numeral is never too large to be a number: it rounds to an infinity then.
theorem isNaN_of_toNumber {n : Numeral} {x : Float} (h : n.toNumber = .float x) :
    x.isNaN = false := by
  have hn : n.toFloat.isNaN = false := by
    rw [Numeral.toFloat]
    split
    · exact isNaN_neg (isNaN_decimal _)
    · exact isNaN_decimal _
  rw [Numeral.toNumber] at h
  split at h
  · cases h
  · cases h
    exact hn

theorem compare?_self_of_ofText? {s : String} {a : Number} (h : ofText? s = some a) :
    a.compare? a = some .eq := by
  apply compare?_self
  rintro x rfl
  rw [ofText?] at h
  split at h
  · exact isNaN_of_toNumber (Option.some.inj h)
  · cases h

end Numerals

end PhpLint.Number
