import Mathlib.Algebra.Group.Int.Defs
import Mathlib.Algebra.Group.Nat.Defs
import Mathlib.Data.List.Basic
import Mathlib.Data.List.TakeWhile
import PhpLint.Number.Numeral

namespace PhpLint.Number

section Words

-- The integers that are words of 64 bits.
def Fits (r : Int) : Prop :=
  -2 ^ 63 ≤ r ∧ r < 2 ^ 63

theorem fits_toInt (n : Int64) : Fits n.toInt :=
  ⟨Int64.le_toInt n, Int64.toInt_lt n⟩

theorem toInt_ofInt_of_fits {r : Int} (h : Fits r) : (Int64.ofInt r).toInt = r :=
  Int64.toInt_ofInt_of_le h.1 h.2

theorem word?_of_fits {r : Int} (h : Fits r) : word? r = some (Int64.ofInt r) := by
  have hmax : r ≤ Int64.maxValue.toInt := Int.le_of_lt_add_one h.2
  rw [word?, if_pos ⟨h.1, hmax⟩]

theorem word?_of_not_fits {r : Int} (h : ¬Fits r) : word? r = none := by
  rw [word?, if_neg]
  rintro ⟨hmin, hmax⟩
  exact h ⟨hmin, Int.lt_add_one_of_le hmax⟩

theorem word?_eq_some_iff {r : Int} {n : Int64} : word? r = some n ↔ n.toInt = r := by
  constructor
  · intro h
    by_cases hfits : Fits r
    · rw [word?_of_fits hfits] at h
      obtain rfl := Option.some.inj h
      exact toInt_ofInt_of_fits hfits
    · rw [word?_of_not_fits hfits] at h
      cases h
  · rintro rfl
    rw [word?_of_fits (fits_toInt n), Int64.ofInt_toInt]

end Words

section Texts

-- Decimal digits, at least one.
def IsDigits (cs : List Char) : Prop :=
  cs ≠ [] ∧ ∀ c ∈ cs, c.isDigit = true

theorem isDigits_toDigits (n : Nat) : IsDigits (Nat.toDigits 10 n) :=
  ⟨Nat.toDigits_ne_nil, fun _ => Nat.isDigit_of_mem_toDigits (by decide) (by decide)⟩

-- The texts of integers: digits with or without a sign, after any blanks.
inductive DenotesInt : List Char → Int → Prop where
  | digits {cs : List Char} : IsDigits cs → DenotesInt cs (Nat.ofDigitChars 10 cs 0)
  | plus {cs : List Char} : IsDigits cs → DenotesInt ('+' :: cs) (Nat.ofDigitChars 10 cs 0)
  | minus {cs : List Char} : IsDigits cs → DenotesInt ('-' :: cs) (-Nat.ofDigitChars 10 cs 0)
  | blank {c : Char} {cs : List Char} {n : Int} : Numeral.isSpace c = true → DenotesInt cs n →
      DenotesInt (c :: cs) n

theorem digitValue?_of_isDigit {c : Char} (h : c.isDigit = true) :
    digitValue? 10 c = some (c.toNat - '0'.toNat) := by
  have hbound : c.toNat ≤ 57 := by simpa [Char.isDigit] using (Char.isDigit_iff_toNat.mp h).2
  have hvalue : c.toNat - 48 < 10 := by omega
  simp [digitValue?, h, hvalue]

theorem ofDecimalDigits_eq {cs : List Char} (h : ∀ c ∈ cs, c.isDigit = true) :
    ofDecimalDigits cs = Nat.ofDigitChars 10 cs 0 := by
  rw [ofDecimalDigits, Nat.ofDigitChars]
  apply List.foldl_ext
  intro n c hc
  rw [digitValue?_of_isDigit (h c hc), Option.getD_some]

theorem scanFraction_snd_of_fst {hasWhole : Bool} {cs : List Char}
    (h : (Numeral.scanFraction hasWhole cs).1 = none) :
    (Numeral.scanFraction hasWhole cs).2 = cs := by
  revert h
  fun_cases Numeral.scanFraction hasWhole cs <;> simp

theorem scanExponent_snd_of_fst {cs : List Char} (h : (Numeral.scanExponent cs).1 = none) :
    (Numeral.scanExponent cs).2 = cs := by
  revert h
  fun_cases Numeral.scanExponent cs <;> simp

-- A numeral without a point and a power of ten takes up a whole text if that is digits
-- after its blanks and its sign.
theorem scan_eq_digits_iff {cs whole : List Char} {negative : Bool} :
    Numeral.scan cs = some (⟨negative, whole, none, none⟩, []) ↔
      Numeral.scanSign (cs.dropWhile Numeral.isSpace) = (negative, whole) ∧ IsDigits whole := by
  rw [Numeral.scan]
  obtain ⟨sign, digits⟩ := Numeral.scanSign (cs.dropWhile Numeral.isSpace)
  constructor
  · intro h
    simp only [] at h
    split at h
    · cases h
    · next hne =>
      simp only [Option.some.injEq, Prod.mk.injEq, Numeral.mk.injEq] at h
      obtain ⟨⟨rfl, rfl, hfraction, hexponent⟩, hrest⟩ := h
      rw [scanExponent_snd_of_fst hexponent, scanFraction_snd_of_fst hfraction] at hrest
      have hdigits := List.dropWhile_eq_nil_iff.mp hrest
      have htake := List.takeWhile_eq_self_iff.mpr hdigits
      rw [htake]
      refine ⟨rfl, ?_, hdigits⟩
      rintro rfl
      exact hne rfl
  · rintro ⟨h, hne, hdigits⟩
    obtain ⟨rfl, rfl⟩ := Prod.mk.inj h
    have htake := List.takeWhile_eq_self_iff.mpr hdigits
    have hdrop := List.dropWhile_eq_nil_iff.mpr hdigits
    simp [htake, hdrop, hne, Numeral.scanFraction, Numeral.scanExponent]

theorem IsDigits.exists_cons {cs : List Char} (h : IsDigits cs) :
    ∃ c rest, cs = c :: rest ∧ Numeral.isSpace c = false ∧ c ≠ '-' ∧ c ≠ '+' := by
  obtain ⟨c, rest, rfl⟩ := List.exists_cons_of_ne_nil h.1
  have hdigit := h.2 c List.mem_cons_self
  refine ⟨c, rest, rfl, ?_, ?_, ?_⟩
  · by_contra hspace
    simp only [Numeral.isSpace, Bool.not_eq_false, Bool.or_eq_true, beq_iff_eq] at hspace
    rcases hspace with ((((rfl | rfl) | rfl) | rfl) | rfl) | rfl <;> cases hdigit
  · rintro rfl
    cases hdigit
  · rintro rfl
    cases hdigit

theorem DenotesInt.of_dropWhile {cs : List Char} {n : Int}
    (h : DenotesInt (cs.dropWhile Numeral.isSpace) n) : DenotesInt cs n := by
  induction cs with
  | nil => exact h
  | cons c cs ih =>
      by_cases hspace : Numeral.isSpace c = true
      · rw [List.dropWhile_cons_of_pos hspace] at h
        exact .blank hspace (ih h)
      · rwa [List.dropWhile_cons_of_neg hspace] at h

theorem denotesInt_of_scanSign {cs whole : List Char} {negative : Bool}
    (h : Numeral.scanSign cs = (negative, whole)) (hdigits : IsDigits whole) :
    DenotesInt cs (Numeral.toInt ⟨negative, whole, none, none⟩) := by
  rw [Numeral.toInt, ofDecimalDigits_eq hdigits.2]
  revert h
  fun_cases Numeral.scanSign cs with
  | case1 cs =>
      rintro h
      cases h
      exact .minus hdigits
  | case2 cs =>
      rintro h
      cases h
      exact .plus hdigits
  | case3 cs =>
      rintro h
      cases h
      exact .digits hdigits

-- The induction is on how the text was put together, with its blanks from the front.
theorem DenotesInt.exists_scan {cs : List Char} {n : Int} (h : DenotesInt cs n) :
    ∃ negative whole, Numeral.scan cs = some (⟨negative, whole, none, none⟩, []) ∧
      Numeral.toInt ⟨negative, whole, none, none⟩ = n := by
  induction h with
  | digits hdigits =>
      refine ⟨false, _, scan_eq_digits_iff.mpr ⟨?_, hdigits⟩, ?_⟩
      · obtain ⟨c, rest, rfl, hspace, hminus, hplus⟩ := hdigits.exists_cons
        rw [List.dropWhile_cons_of_neg (by simp [hspace])]
        simp [Numeral.scanSign, hminus, hplus]
      · rw [Numeral.toInt, ofDecimalDigits_eq hdigits.2]
        rfl
  | plus hdigits =>
      refine ⟨false, _, scan_eq_digits_iff.mpr ⟨rfl, hdigits⟩, ?_⟩
      rw [Numeral.toInt, ofDecimalDigits_eq hdigits.2]
      rfl
  | minus hdigits =>
      refine ⟨true, _, scan_eq_digits_iff.mpr ⟨rfl, hdigits⟩, ?_⟩
      rw [Numeral.toInt, ofDecimalDigits_eq hdigits.2]
      rfl
  | blank hspace _ ih =>
      obtain ⟨negative, whole, hscan, hn⟩ := ih
      refine ⟨negative, whole, scan_eq_digits_iff.mpr ?_, hn⟩
      rw [List.dropWhile_cons_of_pos hspace]
      exact scan_eq_digits_iff.mp hscan

-- The texts that count as integers are those of integers that are words.
theorem ofText?_eq_int_iff {s : String} {n : Int64} :
    ofText? s = some (.int n) ↔ DenotesInt s.toList n.toInt := by
  rw [ofText?]
  constructor
  · intro h
    split at h
    · next numeral hscan =>
        obtain ⟨negative, whole, fraction, exponent⟩ := numeral
        have hnumber := Option.some.inj h
        rw [Numeral.toNumber] at hnumber
        split at hnumber
        · next hfraction hexponent hword =>
            cases hfraction
            cases hexponent
            cases hnumber
            obtain ⟨hsign, hdigits⟩ := scan_eq_digits_iff.mp hscan
            rw [word?_eq_some_iff.mp hword]
            exact (denotesInt_of_scanSign hsign hdigits).of_dropWhile
        · cases hnumber
    · cases h
  · intro h
    obtain ⟨negative, whole, hscan, hn⟩ := h.exists_scan
    have hword := word?_eq_some_iff.mpr hn.symm
    simp only [hscan, Numeral.toNumber, hword]

end Texts

end PhpLint.Number
