import PhpLint.Proofs.Number.Integers
import PhpLint.Proofs.Value.WellFormed
import PhpLint.Value.Operate

namespace PhpLint

namespace Value

section Digits

theorem toNat_sub_lt_ten {c : Char} (hc : c.isDigit = true) : c.toNat - '0'.toNat < 10 := by
  have hmax : c.toNat ≤ 57 := (Char.isDigit_iff_toNat.mp hc).2
  change c.toNat - 48 < 10
  omega

theorem toDigits_of_isDigit {c : Char} (hc : c.isDigit = true) :
    Nat.toDigits 10 (c.toNat - '0'.toNat) = [c] := by
  have hmin : 48 ≤ c.toNat := (Char.isDigit_iff_toNat.mp hc).1
  have hvalue := toNat_sub_lt_ten hc
  rw [Nat.toDigits_of_lt_base hvalue, List.singleton_inj, ← Char.toNat_inj,
    Nat.toNat_digitChar_of_lt_ten hvalue]
  change 48 + (c.toNat - 48) = c.toNat
  omega

-- By induction on the digits. The number read so far is not zero, so its digits are kept.
theorem toDigits_ofDigitChars {cs : List Char} {start : Nat} (hstart : 0 < start)
    (hcs : ∀ c ∈ cs, c.isDigit = true) :
    Nat.toDigits 10 (Nat.ofDigitChars 10 cs start) = Nat.toDigits 10 start ++ cs := by
  induction cs generalizing start with
  | nil => simp
  | cons c cs ih =>
      obtain ⟨hc, hcs⟩ := List.forall_mem_cons.mp hcs
      have hnext : 0 < 10 * start + (c.toNat - '0'.toNat) := by omega
      rw [Nat.ofDigitChars_cons, ih hnext hcs,
        ← Nat.toDigits_append_toDigits (by decide) hstart (toNat_sub_lt_ten hc),
        toDigits_of_isDigit hc, List.append_assoc, List.singleton_append]

-- Digits that do not start with a zero are those of a positive number.
theorem exists_toDigits {c : Char} {cs : List Char} (hdigits : (c :: cs).all Char.isDigit = true)
    (hzero : c ≠ '0') :
    ∃ m, 0 < m ∧ Number.ofDecimalDigits (c :: cs) = m ∧ c :: cs = Nat.toDigits 10 m := by
  have hall := List.all_eq_true.mp hdigits
  obtain ⟨hc, hcs⟩ := List.forall_mem_cons.mp hall
  have hfirst : 0 < c.toNat - '0'.toNat := by
    have hmin : 48 ≤ c.toNat := (Char.isDigit_iff_toNat.mp hc).1
    have hne : c.toNat ≠ 48 := fun h => hzero (Char.toNat_inj.mp h)
    change 0 < c.toNat - 48
    omega
  have hvalue : Nat.ofDigitChars 10 (c :: cs) 0 = Nat.ofDigitChars 10 cs (c.toNat - '0'.toNat) := by
    rw [Nat.ofDigitChars_cons, Nat.mul_zero, Nat.zero_add]
  have hback := toDigits_ofDigitChars hfirst hcs
  rw [toDigits_of_isDigit hc, List.singleton_append, ← hvalue] at hback
  refine ⟨Nat.ofDigitChars 10 (c :: cs) 0, ?_, Number.ofDecimalDigits_eq hall, hback.symm⟩
  by_contra hpos
  rw [Nat.eq_zero_of_not_pos hpos, Nat.toDigits_zero] at hback
  exact hzero (List.cons.inj hback).1.symm

theorem digits_of_canonicalInt? {c : Char} {cs : List Char} {n : Int64} (hminus : c ≠ '-')
    (h : canonicalInt? (c :: cs) = some n) :
    ∃ m : Nat, c :: cs = Nat.toDigits 10 m ∧ n.toInt = m := by
  by_cases hzero : c = '0'
  · subst hzero
    cases cs with
    | nil => exact ⟨0, rfl, Number.word?_eq_some_iff.mp h⟩
    | cons d cs => simp [canonicalInt?] at h
  · have hread : canonicalInt? (c :: cs) = if (c :: cs).all Char.isDigit then
        Number.word? (Number.ofDecimalDigits (c :: cs)) else none := by
      simp [canonicalInt?, hminus, hzero]
    rw [hread] at h
    split at h
    · next hdigits =>
        obtain ⟨m, -, hm, hcs⟩ := exists_toDigits hdigits hzero
        exact ⟨m, hcs, hm ▸ Number.word?_eq_some_iff.mp h⟩
    · cases h

theorem digits_of_canonicalInt?_minus {cs : List Char} {n : Int64}
    (h : canonicalInt? ('-' :: cs) = some n) :
    ∃ m : Nat, 0 < m ∧ cs = Nat.toDigits 10 m ∧ n.toInt = -m := by
  cases cs with
  | nil => simp [canonicalInt?] at h
  | cons c cs =>
      by_cases hzero : c = '0'
      · subst hzero
        cases cs <;> simp [canonicalInt?] at h
      · have hread : canonicalInt? ('-' :: c :: cs) = if (c :: cs).all Char.isDigit then
            Number.word? (-Number.ofDecimalDigits (c :: cs)) else none := by
          simp [canonicalInt?, hzero]
        rw [hread] at h
        split at h
        · next hdigits =>
            obtain ⟨m, hpos, hm, hcs⟩ := exists_toDigits hdigits hzero
            exact ⟨m, hpos, hcs, hm ▸ Number.word?_eq_some_iff.mp h⟩
        · cases h

theorem eq_toString_of_canonicalInt? {cs : List Char} {n : Int64} (h : canonicalInt? cs = some n) :
    cs = (toString n.toInt).toList := by
  rw [Int.toString_eq_repr, Int.repr_eq_if]
  cases cs with
  | nil => cases h
  | cons c cs =>
      by_cases hminus : c = '-'
      · subst hminus
        obtain ⟨m, hpos, rfl, hn⟩ := digits_of_canonicalInt?_minus h
        rw [hn, if_neg (by omega), String.toList_append, Nat.toList_repr, Int.neg_neg,
          Int.toNat_natCast]
        rfl
      · obtain ⟨m, hcs, hn⟩ := digits_of_canonicalInt? hminus h
        rw [hn, if_pos (by omega), Nat.toList_repr, Int.toNat_natCast, hcs]

theorem canonicalInt?_eq_some_iff {s : String} {n : Int64} :
    canonicalInt? s.toList = some n ↔ toString n.toInt = s := by
  constructor
  · intro h
    exact String.toList_inj.mp (eq_toString_of_canonicalInt? h).symm
  · rintro rfl
    exact canonicalInt?_toString n

theorem denotesInt_toString (k : Int) : Number.DenotesInt (toString k).toList k := by
  rw [Int.toString_eq_repr, Int.repr_eq_if]
  by_cases hsign : 0 ≤ k
  · have hdigits := Number.DenotesInt.digits (Number.isDigits_toDigits k.toNat)
    rw [Nat.ofDigitChars_ten_toDigits, Int.toNat_of_nonneg hsign] at hdigits
    rwa [if_pos hsign, Nat.toList_repr]
  · have hdigits := Number.DenotesInt.minus (Number.isDigits_toDigits (-k).toNat)
    rw [Nat.ofDigitChars_ten_toDigits, Int.toNat_of_nonneg (by omega), Int.neg_neg] at hdigits
    rwa [if_neg hsign, String.toList_append, Nat.toList_repr]

end Digits

end Value

theorem Number.ofPrefix?_of_ofText? {s : String} {x : Number} (h : ofText? s = some x) :
    ofPrefix? s = some x := by
  rw [ofText?] at h
  split at h
  · next numeral hscan =>
      rw [ofPrefix?, hscan]
      exact h
  · cases h

-- The text that a key stands for.
def Key.spelling : Key → String
  | .int n => toString n.toInt
  | .text s => s

-- Among canonical keys each text has one.
theorem Key.eq_of_spelling_eq {k l : Key} (hk : k.IsCanonical) (hl : l.IsCanonical)
    (h : k.spelling = l.spelling) : k = l := by
  cases k with
  | int n =>
      cases l with
      | int m =>
          have hn := Value.canonicalInt?_eq_some_iff.mpr h
          rw [spelling, Value.canonicalInt?_toString] at hn
          rw [Option.some.inj hn]
      | text s => exact absurd h.symm (hl n)
  | text s =>
      cases l with
      | int m => exact absurd h (hk m)
      | text t => rw [show s = t from h]

namespace Value

-- The values that keys are given as when they are not converted first.
inductive IsIntOrText : Value → Prop where
  | int (n : Int64) : IsIntOrText (int n)
  | string (s : String) : IsIntOrText (string s)

section Keys

variable {a b : Value} {s : String} {n : Int64}

theorem toKey?_string_eq_int_iff :
    (string s).toKey? = some (.int n) ↔ (int n).toText? = some s := by
  rw [toKey?, toText?, Option.some.injEq, Option.some.injEq, ← canonicalInt?_eq_some_iff]
  cases canonicalInt? s.toList <;> simp

theorem toKey?_string_of_forall_ne (h : ∀ n, (int n).toText? ≠ some s) :
    (string s).toKey? = some (.text s) := by
  cases hs : canonicalInt? s.toList with
  | none => rw [toKey?, hs, Option.elim_none]
  | some n => exact absurd (congrArg some (canonicalInt?_eq_some_iff.mp hs)) (h n)

-- A key keeps the text of what it was given as.
theorem exists_toKey? (ha : a.IsIntOrText) :
    ∃ key, a.toKey? = some key ∧ key.IsCanonical ∧ a.toText? = some key.spelling := by
  cases ha with
  | int n => exact ⟨.int n, rfl, trivial, rfl⟩
  | string s =>
      cases hs : canonicalInt? s.toList with
      | none =>
          have hkey : (string s).toKey? = some (.text s) := by rw [toKey?, hs, Option.elim_none]
          exact ⟨.text s, hkey, isCanonical_of_toKey? hkey, rfl⟩
      | some n =>
          have hkey : (string s).toKey? = some (.int n) := by rw [toKey?, hs, Option.elim_some]
          exact ⟨.int n, hkey, trivial, (toKey?_string_eq_int_iff.mp hkey).symm⟩

theorem toKey?_eq_iff (ha : a.IsIntOrText) (hb : b.IsIntOrText) :
    a.toKey? = b.toKey? ↔ a.toText? = b.toText? := by
  obtain ⟨k, hk, hkcanonical, hktext⟩ := exists_toKey? ha
  obtain ⟨l, hl, hlcanonical, hltext⟩ := exists_toKey? hb
  rw [hk, hl, hktext, hltext, Option.some.injEq, Option.some.injEq]
  constructor
  · rintro rfl
    rfl
  · exact Key.eq_of_spelling_eq hkcanonical hlcanonical

theorem toInt?_string_of_toText? (h : (int n).toText? = some s) : (string s).toInt? = some n := by
  obtain rfl := Option.some.inj h
  have hnumber := Number.ofText?_eq_int_iff.mpr (denotesInt_toString n.toInt)
  rw [toInt?, Number.ofPrefix?_of_ofText? hnumber, Option.elim_some, Number.toWord]

theorem cast_int_cast_string (n : Int64) : cast .int (cast .string (int n)) = int n := by
  have hstring : cast .string (int n) = string (toString n.toInt) := rfl
  have hint : cast .int (string (toString n.toInt)) = ofInt? (string (toString n.toInt)).toInt? :=
    rfl
  rw [hstring, hint, toInt?_string_of_toText? rfl, ofInt?]

end Keys

-- A text is the key of an integer exactly if it is the one that the integer is written as.
-- So two keys are the same exactly if their texts are, and writing an integer loses nothing.
theorem integer_keys_are_integer_texts :
    (∀ s n, (string s).toKey? = some (.int n) ↔ (int n).toText? = some s) ∧
    (∀ s, (∀ n, (int n).toText? ≠ some s) → (string s).toKey? = some (.text s)) ∧
    (∀ a b, IsIntOrText a → IsIntOrText b → (a.toKey? = b.toKey? ↔ a.toText? = b.toText?)) ∧
    (∀ n, cast .int (cast .string (int n)) = int n) := by
  exact ⟨fun s n => toKey?_string_eq_int_iff, fun s => toKey?_string_of_forall_ne,
    fun a b => toKey?_eq_iff, cast_int_cast_string⟩

-- The smallest integer is the key of its text, but a zero with a sign is a text.
theorem integer_keys_are_integer_texts_signed :
    (string "-9223372036854775808").toKey? = (int Int64.minValue).toKey? ∧
      (string "-0").toKey? ≠ (int 0).toKey? := by
  obtain ⟨-, -, hsame, -⟩ := integer_keys_are_integer_texts
  exact ⟨(hsame _ _ (.string _) (.int _)).mpr (by decide),
    (hsame _ _ (.string _) (.int _)).not.mpr (by decide)⟩

end Value

end PhpLint
