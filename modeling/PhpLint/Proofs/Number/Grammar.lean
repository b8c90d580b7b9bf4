import Mathlib.Computability.RegularExpressions
import PhpLint.Proofs.Number.Integers

namespace PhpLint.Number

namespace Grammar

open RegularExpression

-- One of the characters.
def oneOf (cs : List Char) : RegularExpression Char :=
  cs.foldr (fun c others => char c + others) 0

def blank : RegularExpression Char :=
  oneOf [' ', '\t', '\n', '\r', '\x0b', '\x0c']

def digit : RegularExpression Char :=
  oneOf ['0', '1', '2', '3', '4', '5', '6', '7', '8', '9']

def digits : RegularExpression Char :=
  digit * star digit

def optionalSign : RegularExpression Char :=
  1 + oneOf ['+', '-']

-- A point needs a digit on one of its sides.
def mantissa : RegularExpression Char :=
  digits * (1 + char '.' * star digit) + char '.' * digits

def power : RegularExpression Char :=
  oneOf ['e', 'E'] * optionalSign * digits

-- The texts that are numbers.
def numeral : RegularExpression Char :=
  star blank * optionalSign * mantissa * (1 + power)

theorem mem_oneOf {cs w : List Char} : w ∈ (oneOf cs).matches' ↔ ∃ c ∈ cs, w = [c] := by
  induction cs with
  | nil => simp [oneOf]
  | cons c cs ih =>
      have hcons : w ∈ (oneOf (c :: cs)).matches' ↔ w = [c] ∨ w ∈ (oneOf cs).matches' := Iff.rfl
      rw [hcons, ih, List.exists_mem_cons_iff]

theorem mem_star_oneOf {cs w : List Char} :
    w ∈ (star (oneOf cs)).matches' ↔ ∀ c ∈ w, c ∈ cs := by
  rw [matches'_star, Language.mem_kstar]
  constructor
  · rintro ⟨words, rfl, hwords⟩ c hc
    obtain ⟨word, hword, hc⟩ := List.mem_flatten.mp hc
    obtain ⟨d, hd, rfl⟩ := mem_oneOf.mp (hwords word hword)
    rwa [List.mem_singleton.mp hc]
  · intro h
    refine ⟨w.map ([·]), by rw [← List.flatMap_def, List.flatMap_singleton'], ?_⟩
    intro word hword
    obtain ⟨c, hc, rfl⟩ := List.mem_map.mp hword
    exact mem_oneOf.mpr ⟨c, h c hc, rfl⟩

theorem isDigit_iff_mem {c : Char} :
    c.isDigit = true ↔ c ∈ ['0', '1', '2', '3', '4', '5', '6', '7', '8', '9'] := by
  constructor
  · intro h
    have hall : ∀ n < 58, 48 ≤ n →
        Char.ofNat n ∈ ['0', '1', '2', '3', '4', '5', '6', '7', '8', '9'] := by decide
    obtain ⟨hmin, hmax⟩ := Char.isDigit_iff_toNat.mp h
    rw [← Char.ofNat_toNat c]
    exact hall c.toNat (Nat.lt_succ_of_le hmax) hmin
  · exact List.all_eq_true.mp (by decide) c

theorem mem_star_digit {w : List Char} :
    w ∈ (star digit).matches' ↔ ∀ c ∈ w, c.isDigit = true := by
  simp only [digit, mem_star_oneOf, isDigit_iff_mem]

theorem mem_star_blank {w : List Char} :
    w ∈ (star blank).matches' ↔ ∀ c ∈ w, Numeral.isSpace c = true := by
  simp only [blank, mem_star_oneOf, Numeral.isSpace, List.mem_cons, List.not_mem_nil, or_false,
    Bool.or_eq_true, beq_iff_eq, or_assoc]

theorem mem_digits {w : List Char} : w ∈ digits.matches' ↔ IsDigits w := by
  rw [digits, matches'_mul, Language.mem_mul]
  simp only [mem_star_digit]
  simp only [digit, mem_oneOf, ← isDigit_iff_mem]
  constructor
  · rintro ⟨_, ⟨c, hc, rfl⟩, ds, hds, rfl⟩
    exact ⟨by simp, List.forall_mem_cons.mpr ⟨hc, hds⟩⟩
  · rintro ⟨hne, hdigits⟩
    obtain ⟨c, ds, rfl⟩ := List.exists_cons_of_ne_nil hne
    obtain ⟨hc, hds⟩ := List.forall_mem_cons.mp hdigits
    exact ⟨[c], ⟨c, hc, rfl⟩, ds, hds, rfl⟩

theorem mem_char {c : Char} {w : List Char} : w ∈ (char c).matches' ↔ w = [c] :=
  Iff.rfl

end Grammar

namespace Numeral

-- What may stand for a sign, and whether it is negative.
inductive SignText : Bool → List Char → Prop where
  | none : SignText false []
  | plus : SignText false ['+']
  | minus : SignText true ['-']

-- Digits before and after a point. Without the point there is no fraction.
inductive MantissaText : List Char → Option (List Char) → List Char → Prop where
  | whole {whole : List Char} : IsDigits whole → MantissaText whole none whole
  | point {whole fraction : List Char} : (∀ c ∈ whole, c.isDigit = true) →
      (∀ c ∈ fraction, c.isDigit = true) → whole ≠ [] ∨ fraction ≠ [] →
      MantissaText whole (some fraction) (whole ++ '.' :: fraction)

inductive PowerText : Option (Bool × List Char) → List Char → Prop where
  | none : PowerText none []
  | some {c : Char} {negative : Bool} {sign digits : List Char} : c = 'e' ∨ c = 'E' →
      SignText negative sign → IsDigits digits →
      PowerText (some (negative, digits)) (c :: (sign ++ digits))

-- The texts that a numeral has, by the texts of its parts.
inductive HasText : Numeral → List Char → Prop where
  | intro {negative : Bool} {whole : List Char} {fraction : Option (List Char)}
      {exponent : Option (Bool × List Char)} {blanks sign mantissa power : List Char} :
      (∀ c ∈ blanks, isSpace c = true) → SignText negative sign →
      MantissaText whole fraction mantissa → PowerText exponent power →
      HasText ⟨negative, whole, fraction, exponent⟩ (blanks ++ (sign ++ (mantissa ++ power)))

section Texts

open Grammar RegularExpression

variable {w : List Char}

theorem mem_optionalSign : w ∈ optionalSign.matches' ↔ ∃ negative, SignText negative w := by
  rw [optionalSign, matches'_add, matches'_epsilon, Language.mem_add, Language.mem_one, mem_oneOf]
  constructor
  · rintro (rfl | ⟨c, hc, rfl⟩)
    · exact ⟨false, .none⟩
    · rw [List.mem_pair] at hc
      rcases hc with rfl | rfl
      · exact ⟨false, .plus⟩
      · exact ⟨true, .minus⟩
  · rintro ⟨negative, hsign⟩
    cases hsign with
    | none => exact .inl rfl
    | plus => exact .inr ⟨'+', by decide, rfl⟩
    | minus => exact .inr ⟨'-', by decide, rfl⟩

theorem mem_mantissa :
    w ∈ mantissa.matches' ↔ ∃ whole fraction, MantissaText whole fraction w := by
  simp only [mantissa, matches'_add, matches'_mul, matches'_epsilon, Language.mem_add,
    Language.mem_mul, Language.mem_one, mem_char, mem_digits, mem_star_digit]
  constructor
  · rintro (⟨whole, hwhole, _, rfl | ⟨_, rfl, fraction, hfraction, rfl⟩, rfl⟩ |
      ⟨_, rfl, fraction, hfraction, rfl⟩)
    · rw [List.append_nil]
      exact ⟨whole, none, .whole hwhole⟩
    · exact ⟨whole, some fraction, .point hwhole.2 hfraction (.inl hwhole.1)⟩
    · exact ⟨[], some fraction, .point (by simp) hfraction.2 (.inr hfraction.1)⟩
  · rintro ⟨whole, fraction, h⟩
    cases h with
    | whole hwhole => exact .inl ⟨w, hwhole, [], .inl rfl, List.append_nil w⟩
    | @point fraction hwhole hfraction hsome =>
        by_cases hne : whole = []
        · subst hne
          exact .inr ⟨['.'], rfl, fraction, ⟨hsome.resolve_left (· rfl), hfraction⟩, rfl⟩
        · exact .inl ⟨whole, ⟨hne, hwhole⟩, '.' :: fraction,
            .inr ⟨['.'], rfl, fraction, hfraction, rfl⟩, rfl⟩

theorem mem_optional_power : w ∈ (1 + power).matches' ↔ ∃ exponent, PowerText exponent w := by
  simp only [power, matches'_add, matches'_mul, matches'_epsilon, Language.mem_add,
    Language.mem_mul, Language.mem_one, mem_oneOf, mem_optionalSign, mem_digits, List.mem_pair]
  constructor
  · rintro (rfl | ⟨_, ⟨_, ⟨c, hc, rfl⟩, sign, ⟨negative, hsign⟩, rfl⟩, digits, hdigits, rfl⟩)
    · exact ⟨none, .none⟩
    · exact ⟨some (negative, digits), .some hc hsign hdigits⟩
  · rintro ⟨exponent, h⟩
    cases h with
    | none => exact .inl rfl
    | @some c negative sign digits hc hsign hdigits =>
        exact .inr ⟨c :: sign, ⟨[c], ⟨c, hc, rfl⟩, sign, ⟨negative, hsign⟩, rfl⟩, digits, hdigits, rfl⟩

-- The grammar describes the texts of numerals.
theorem mem_numeral : w ∈ numeral.matches' ↔ ∃ n : Numeral, n.HasText w := by
  simp only [numeral, matches'_mul, Language.mem_mul, mem_star_blank, mem_optionalSign,
    mem_mantissa, mem_optional_power]
  constructor
  · rintro ⟨_, ⟨_, ⟨blanks, hblanks, sign, ⟨negative, hsign⟩, rfl⟩, mantissa,
      ⟨whole, fraction, hmantissa⟩, rfl⟩, power, ⟨exponent, hpower⟩, rfl⟩
    rw [List.append_assoc, List.append_assoc]
    exact ⟨_, .intro hblanks hsign hmantissa hpower⟩
  · rintro ⟨n, h⟩
    cases h with
    | @intro negative whole fraction exponent blanks sign mantissa power hblanks hsign hmantissa
        hpower =>
        refine ⟨blanks ++ sign ++ mantissa, ⟨blanks ++ sign,
          ⟨blanks, hblanks, sign, ⟨negative, hsign⟩, rfl⟩, mantissa,
          ⟨whole, fraction, hmantissa⟩, rfl⟩, power, ⟨exponent, hpower⟩, ?_⟩
        rw [List.append_assoc, List.append_assoc]

end Texts

section Stages

variable {cs rest : List Char}

-- What a scan did, stage by stage.
theorem scan_eq_some_iff {n : Numeral} : scan cs = some (n, rest) ↔
    ∃ unsigned after, scanSign (cs.dropWhile isSpace) = (n.negative, unsigned) ∧
      unsigned.takeWhile Char.isDigit = n.whole ∧
      scanFraction (!n.whole.isEmpty) (unsigned.dropWhile Char.isDigit) = (n.fraction, after) ∧
      (n.whole ≠ [] ∨ n.fraction ≠ none) ∧ scanExponent after = (n.exponent, rest) := by
  obtain ⟨negative, whole, fraction, exponent⟩ := n
  rw [scan]
  constructor
  · intro h
    dsimp only at h
    split at h
    · cases h
    · next hsome =>
        cases h
        rw [Bool.and_eq_true, List.isEmpty_iff, Option.isNone_iff_eq_none, not_and_or] at hsome
        exact ⟨_, _, rfl, rfl, rfl, hsome, rfl⟩
  · rintro ⟨unsigned, after, hsign, rfl, hfraction, hsome, hexponent⟩
    simp only [hsign, hfraction, hexponent]
    rw [if_neg]
    rwa [Bool.and_eq_true, List.isEmpty_iff, Option.isNone_iff_eq_none, not_and_or]

theorem exists_signText (cs : List Char) :
    ∃ sign, SignText (scanSign cs).1 sign ∧ cs = sign ++ (scanSign cs).2 := by
  fun_cases scanSign cs with
  | case1 cs => exact ⟨['-'], .minus, rfl⟩
  | case2 cs => exact ⟨['+'], .plus, rfl⟩
  | case3 cs => exact ⟨[], .none, rfl⟩

-- The point and the digits that were taken, if any.
theorem exists_mantissaText {whole : List Char} (hwhole : ∀ c ∈ whole, c.isDigit = true)
    {fraction : Option (List Char)}
    (hscan : scanFraction (!whole.isEmpty) cs = (fraction, rest))
    (hsome : whole ≠ [] ∨ fraction ≠ none) :
    ∃ mantissa, MantissaText whole fraction mantissa ∧ whole ++ cs = mantissa ++ rest := by
  revert hscan
  fun_cases scanFraction (!whole.isEmpty) cs with
  | case1 cs digits hkept =>
      rintro h
      cases h
      refine ⟨whole ++ '.' :: digits, .point hwhole (fun _ => List.mem_takeWhile_imp) ?_, ?_⟩
      · simpa using hkept
      · simp [digits]
  | case2 cs digits hdropped =>
      rintro h
      cases h
      exact ⟨whole, .whole ⟨by simpa using hsome, hwhole⟩, rfl⟩
  | case3 hpoint =>
      rintro h
      cases h
      exact ⟨whole, .whole ⟨by simpa using hsome, hwhole⟩, rfl⟩

theorem exists_powerText (cs : List Char) :
    ∃ power, PowerText (scanExponent cs).1 power ∧ cs = power ++ (scanExponent cs).2 := by
  cases cs with
  | nil => exact ⟨[], .none, rfl⟩
  | cons c cs =>
      obtain ⟨sign, hsign, hcs⟩ := exists_signText cs
      simp only [scanExponent]
      split
      · next hpower =>
          simp only [Bool.and_eq_true, Bool.or_eq_true, beq_iff_eq, Bool.not_eq_true',
            List.isEmpty_eq_false_iff] at hpower
          refine ⟨_, .some hpower.1 hsign ⟨hpower.2, fun _ => List.mem_takeWhile_imp⟩, ?_⟩
          rw [List.cons_append, List.append_assoc, List.takeWhile_append_dropWhile, ← hcs]
      · exact ⟨[], .none, rfl⟩

-- What a scan took is a text of the numeral that it gives.
theorem exists_hasText {n : Numeral} (h : scan cs = some (n, rest)) :
    ∃ text, n.HasText text ∧ cs = text ++ rest := by
  obtain ⟨unsigned, after, hscan, hwhole, hfraction, hsome, hexponent⟩ := scan_eq_some_iff.mp h
  have hblanks : ∀ c ∈ cs.takeWhile isSpace, isSpace c = true := fun _ => List.mem_takeWhile_imp
  have hdigits : ∀ c ∈ n.whole, c.isDigit = true := by
    rw [← hwhole]
    exact fun _ => List.mem_takeWhile_imp
  obtain ⟨sign, hsign, hunsigned⟩ := exists_signText (cs.dropWhile isSpace)
  obtain ⟨mantissa, hmantissa, hafter⟩ := exists_mantissaText hdigits hfraction hsome
  obtain ⟨power, hpower, hrest⟩ := exists_powerText after
  rw [hscan] at hsign hunsigned
  rw [hexponent] at hpower hrest
  refine ⟨_, .intro hblanks hsign hmantissa hpower, ?_⟩
  calc cs = cs.takeWhile isSpace ++ cs.dropWhile isSpace := List.takeWhile_append_dropWhile.symm
    _ = cs.takeWhile isSpace ++ (sign ++ (n.whole ++ unsigned.dropWhile Char.isDigit)) := by
        rw [hunsigned, ← hwhole, List.takeWhile_append_dropWhile]
    _ = cs.takeWhile isSpace ++ (sign ++ (mantissa ++ power)) ++ rest := by
        rw [hafter, hrest]
        simp

theorem SignText.scanSign_append {negative : Bool} {sign : List Char} {c : Char}
    (h : SignText negative sign) (hminus : c ≠ '-') (hplus : c ≠ '+') (rest : List Char) :
    scanSign (sign ++ c :: rest) = (negative, c :: rest) := by
  cases h with
  | none => simp [scanSign, hminus, hplus]
  | plus => rfl
  | minus => rfl

theorem scanFraction_cons_of_ne {c : Char} (hc : c ≠ '.') (hasWhole : Bool) (rest : List Char) :
    scanFraction hasWhole (c :: rest) = (none, c :: rest) := by
  simp [scanFraction, hc]

-- Digits in front of a point, the point and the digits behind it, however many there are.
theorem scanFraction_point {whole fraction : List Char} (hwhole : ∀ c ∈ whole, c.isDigit = true)
    (hfraction : ∀ c ∈ fraction, c.isDigit = true) (hsome : whole ≠ [] ∨ fraction ≠ [])
    (rest : List Char) :
    (whole ++ '.' :: fraction ++ rest).takeWhile Char.isDigit = whole ∧
      scanFraction (!whole.isEmpty) ((whole ++ '.' :: fraction ++ rest).dropWhile Char.isDigit) =
        (some (fraction ++ rest.takeWhile Char.isDigit), rest.dropWhile Char.isDigit) := by
  have hkept : (!whole.isEmpty || !(fraction ++ rest.takeWhile Char.isDigit).isEmpty) = true := by
    rcases hsome with hne | hne <;> simp [hne]
  have hpoint : Char.isDigit '.' = false := rfl
  rw [List.append_assoc, List.cons_append, List.takeWhile_append_of_pos hwhole,
    List.dropWhile_append_of_pos hwhole, List.takeWhile_cons_of_neg (by simp [hpoint]),
    List.dropWhile_cons_of_neg (by simp [hpoint]), List.append_nil]
  simp only [scanFraction, List.takeWhile_append_of_pos hfraction,
    List.dropWhile_append_of_pos hfraction, if_pos hkept, and_self]

theorem scanExponent_power {c : Char} {negative : Bool} {sign digits : List Char}
    (hc : c = 'e' ∨ c = 'E') (hsign : SignText negative sign) (hdigits : IsDigits digits)
    (rest : List Char) : scanExponent (c :: (sign ++ (digits ++ rest))) =
      (some (negative, digits ++ rest.takeWhile Char.isDigit), rest.dropWhile Char.isDigit) := by
  obtain ⟨d, more, rfl, -, hminus, hplus⟩ := hdigits.exists_cons
  have hscan : scanSign (sign ++ (d :: more ++ rest)) = (negative, d :: more ++ rest) :=
    hsign.scanSign_append hminus hplus (more ++ rest)
  have hpower : ((c == 'e' || c == 'E') &&
      !(d :: more ++ rest.takeWhile Char.isDigit).isEmpty) = true := by
    simpa using hc
  simp only [scanExponent, hscan, List.takeWhile_append_of_pos hdigits.2,
    List.dropWhile_append_of_pos hdigits.2, if_pos hpower]

theorem length_scanFraction_le (hasWhole : Bool) (cs : List Char) :
    (scanFraction hasWhole cs).2.length ≤ cs.length := by
  fun_cases scanFraction hasWhole cs with
  | case1 cs => exact Nat.le_succ_of_le (List.length_dropWhile_le _ _)
  | case2 => exact Nat.le_refl _
  | case3 => exact Nat.le_refl _

theorem length_scanExponent_le (cs : List Char) : (scanExponent cs).2.length ≤ cs.length := by
  obtain ⟨power, -, hcs⟩ := exists_powerText cs
  have hlength := congrArg List.length hcs
  rw [List.length_append] at hlength
  omega

section Mantissas

variable {whole mantissa : List Char} {fraction : Option (List Char)}

theorem MantissaText.exists_cons (h : MantissaText whole fraction mantissa) :
    ∃ c rest, mantissa = c :: rest ∧ isSpace c = false ∧ c ≠ '-' ∧ c ≠ '+' := by
  cases h with
  | whole hwhole => exact hwhole.exists_cons
  | point hwhole _ _ =>
      by_cases hne : whole = []
      · subst hne
        exact ⟨'.', _, rfl, by decide, by decide, by decide⟩
      · obtain ⟨c, rest, rfl, hc⟩ := IsDigits.exists_cons ⟨hne, hwhole⟩
        exact ⟨c, _, rfl, hc⟩

theorem MantissaText.scanSign_dropWhile (h : MantissaText whole fraction mantissa)
    {negative : Bool} {blanks sign : List Char} (hblanks : ∀ c ∈ blanks, isSpace c = true)
    (hsign : SignText negative sign) (rest : List Char) :
    scanSign ((blanks ++ (sign ++ (mantissa ++ rest))).dropWhile isSpace) =
      (negative, mantissa ++ rest) := by
  obtain ⟨c, more, rfl, hspace, hminus, hplus⟩ := h.exists_cons
  have hstop : (sign ++ c :: (more ++ rest)).dropWhile isSpace = sign ++ c :: (more ++ rest) := by
    cases hsign with
    | none => simp [hspace]
    | plus => rfl
    | minus => rfl
  rw [List.dropWhile_append_of_pos hblanks, List.cons_append, hstop,
    hsign.scanSign_append hminus hplus]

theorem MantissaText.whole_or_fraction (h : MantissaText whole fraction mantissa) :
    whole ≠ [] ∨ fraction ≠ none := by
  cases h with
  | whole hwhole => exact .inl hwhole.1
  | point => exact .inr (Option.some_ne_none _)

-- A character that belongs to neither digits nor a point ends a mantissa.
theorem MantissaText.scan_append_cons (h : MantissaText whole fraction mantissa) {c : Char}
    (hdigit : c.isDigit = false) (hpoint : c ≠ '.') (rest : List Char) :
    (mantissa ++ c :: rest).takeWhile Char.isDigit = whole ∧
      scanFraction (!whole.isEmpty) ((mantissa ++ c :: rest).dropWhile Char.isDigit) =
        (fraction, c :: rest) := by
  cases h with
  | whole hwhole =>
      rw [List.takeWhile_append_of_pos hwhole.2, List.dropWhile_append_of_pos hwhole.2]
      simp [hdigit, scanFraction_cons_of_ne hpoint]
  | point hwhole hfraction hsome =>
      have hscan := scanFraction_point hwhole hfraction hsome (c :: rest)
      rwa [List.takeWhile_cons_of_neg (by simp [hdigit]),
        List.dropWhile_cons_of_neg (by simp [hdigit]), List.append_nil] at hscan

-- Otherwise some of what follows may be taken too.
theorem MantissaText.exists_scan_append (h : MantissaText whole fraction mantissa)
    (rest : List Char) :
    ∃ digits point after, (mantissa ++ rest).takeWhile Char.isDigit = digits ∧
      scanFraction (!digits.isEmpty) ((mantissa ++ rest).dropWhile Char.isDigit) =
        (point, after) ∧
      (digits ≠ [] ∨ point ≠ none) ∧ after.length ≤ rest.length ∧
      (rest = [] → digits = whole ∧ point = fraction) := by
  cases h with
  | whole hwhole =>
      rw [List.takeWhile_append_of_pos hwhole.2, List.dropWhile_append_of_pos hwhole.2]
      refine ⟨_, _, _, rfl, rfl, .inl (by simp [hwhole.1]), ?_, ?_⟩
      · exact (length_scanFraction_le _ _).trans (List.length_dropWhile_le _ rest)
      · rintro rfl
        simp
  | point hwhole hfraction hsome =>
      obtain ⟨htake, hscan⟩ := scanFraction_point hwhole hfraction hsome rest
      refine ⟨whole, _, _, htake, hscan, .inr (Option.some_ne_none _),
        List.length_dropWhile_le _ rest, ?_⟩
      rintro rfl
      simp

end Mantissas

-- Whatever follows, a scan takes at least the text, and its parts as they are if nothing does.
theorem HasText.exists_scan_append {n : Numeral} {text : List Char} (h : n.HasText text)
    (rest : List Char) :
    ∃ m left, scan (text ++ rest) = some (m, left) ∧ left.length ≤ rest.length ∧
      (rest = [] → m = n) := by
  cases h with
  | @intro negative whole fraction exponent blanks sign mantissa power hblanks hsign hmantissa
      hpower =>
      have hassoc : blanks ++ (sign ++ (mantissa ++ power)) ++ rest =
          blanks ++ (sign ++ (mantissa ++ (power ++ rest))) := by simp
      have hunsigned := hmantissa.scanSign_dropWhile hblanks hsign (power ++ rest)
      rw [hassoc]
      cases hpower with
      | none =>
          obtain ⟨digits, point, after, htake, hscan, hsome, hafter, hexact⟩ :=
            hmantissa.exists_scan_append rest
          refine ⟨⟨negative, digits, point, (scanExponent after).1⟩, (scanExponent after).2,
            scan_eq_some_iff.mpr ⟨_, after, hunsigned, htake, hscan, hsome, rfl⟩,
            (length_scanExponent_le after).trans hafter, ?_⟩
          rintro rfl
          obtain ⟨rfl, rfl⟩ := hexact rfl
          obtain rfl := List.length_eq_zero_iff.mp (Nat.le_zero.mp hafter)
          rfl
      | @some c powerNegative powerSign digits hc hpowerSign hdigits =>
          -- The letter of the power keeps the mantissa as it is.
          have hletter : c.isDigit = false ∧ c ≠ '.' := by
            rcases hc with rfl | rfl <;> decide
          obtain ⟨htake, hscan⟩ := hmantissa.scan_append_cons hletter.1 hletter.2
            (powerSign ++ (digits ++ rest))
          have hexponent := scanExponent_power hc hpowerSign hdigits rest
          rw [List.cons_append, List.append_assoc] at hunsigned ⊢
          refine ⟨⟨negative, whole, fraction, _⟩, _, scan_eq_some_iff.mpr
            ⟨_, _, hunsigned, htake, hscan, hmantissa.whole_or_fraction, hexponent⟩,
            List.length_dropWhile_le _ rest, ?_⟩
          rintro rfl
          simp

theorem HasText.scan_eq {n : Numeral} {text : List Char} (h : n.HasText text) :
    scan text = some (n, []) := by
  obtain ⟨m, left, hscan, hleft, hexact⟩ := h.exists_scan_append []
  rw [List.append_nil] at hscan
  rw [hscan, hexact rfl, List.length_eq_zero_iff.mp (Nat.le_zero.mp hleft)]

end Stages

end Numeral

-- A text that is a number as a whole.
def IsNumeral (s : String) : Prop :=
  s.toList ∈ Grammar.numeral.matches'

instance : DecidablePred IsNumeral :=
  fun s => inferInstanceAs (Decidable (s.toList ∈ Grammar.numeral.matches'))

example : IsNumeral " -12.e+3" ∧ ¬IsNumeral ". 5" := by decide

section Numbers

variable {n : Numeral}

theorem toNumber_int_or_float (n : Numeral) :
    (∃ k, n.toNumber = .int k) ∨ n.toNumber = .float n.toFloat := by
  rw [Numeral.toNumber]
  split
  · exact .inl ⟨_, rfl⟩
  · exact .inr rfl

-- The number that a numeral denotes is an integer if its text says so.
theorem toNumber_eq_int_iff {text : List Char} (h : n.HasText text) {k : Int64} :
    n.toNumber = .int k ↔ DenotesInt text k.toInt := by
  have hof : ofText? (String.ofList text) = some n.toNumber := by
    rw [ofText?, String.toList_ofList, h.scan_eq]
  have hiff := ofText?_eq_int_iff (s := String.ofList text) (n := k)
  rwa [hof, Option.some.injEq, String.toList_ofList] at hiff

-- No text of a number at the start goes further than what a scan takes.
theorem isPrefix_of_hasText {cs text taken rest more : List Char} {m : Numeral}
    (hscan : Numeral.scan cs = some (n, rest)) (htaken : cs = taken ++ rest)
    (htext : m.HasText text) (hcs : cs = text ++ more) : text <+: taken := by
  obtain ⟨_, left, hagain, hleft, -⟩ := htext.exists_scan_append more
  rw [← hcs, hscan] at hagain
  cases hagain
  have hlength := congrArg List.length (htaken.symm.trans hcs)
  rw [List.length_append, List.length_append] at hlength
  exact List.prefix_of_prefix_length_le ⟨more, hcs.symm⟩ ⟨rest, htaken.symm⟩ (by omega)

end Numbers

-- What is read at the start of a text: the longest number there. It is an integer if it has
-- neither a point nor a power and is a word, and a double made from its digits if not.
structure ReadsNumber (s taken : String) (number : Number) : Prop where
  isNumeral : IsNumeral taken
  longest (p rest : String) : s = p ++ rest → IsNumeral p → p.utf8ByteSize ≤ taken.utf8ByteSize
  int (k : Int64) : DenotesInt taken.toList k.toInt → number = .int k
  float : (∀ k : Int64, ¬DenotesInt taken.toList k.toInt) →
    ∃ n : Numeral, n.HasText taken.toList ∧ number = .float n.toFloat

section Strings

variable {s : String}

theorem exists_readsNumber {n : Numeral} {rest : List Char}
    (hscan : Numeral.scan s.toList = some (n, rest)) :
    ∃ taken, s = taken ++ String.ofList rest ∧ ReadsNumber s taken n.toNumber := by
  obtain ⟨text, htext, hs⟩ := Numeral.exists_hasText hscan
  refine ⟨String.ofList text, ?_, ?_⟩
  · rw [← String.ofList_append, ← hs, String.ofList_toList]
  constructor
  case isNumeral =>
    rw [IsNumeral, String.toList_ofList]
    exact Numeral.mem_numeral.mpr ⟨n, htext⟩
  case longest =>
    intro p more hp hnumeral
    obtain ⟨m, hm⟩ := Numeral.mem_numeral.mp hnumeral
    have hmore : s.toList = p.toList ++ more.toList := by rw [hp, String.toList_append]
    obtain ⟨others, rfl⟩ := isPrefix_of_hasText hscan hs hm hmore
    rw [String.ofList_append, String.ofList_toList, String.utf8ByteSize_append]
    exact Nat.le_add_right _ _
  case int =>
    intro k hk
    rw [String.toList_ofList] at hk
    exact (toNumber_eq_int_iff htext).mpr hk
  case float =>
    intro hnone
    rw [String.toList_ofList] at hnone ⊢
    rcases toNumber_int_or_float n with ⟨k, hk⟩ | hfloat
    · exact absurd ((toNumber_eq_int_iff htext).mp hk) (hnone k)
    · exact ⟨n, htext, hfloat⟩

theorem scan_eq_none_iff :
    Numeral.scan s.toList = none ↔ ∀ p rest, s = p ++ rest → ¬IsNumeral p := by
  constructor
  · intro hnone p rest hs hnumeral
    obtain ⟨n, hn⟩ := Numeral.mem_numeral.mp hnumeral
    obtain ⟨m, left, hscan, -⟩ := hn.exists_scan_append rest.toList
    rw [← String.toList_append, ← hs, hnone] at hscan
    cases hscan
  · intro hnone
    rw [Option.eq_none_iff_forall_ne_some]
    rintro ⟨n, rest⟩ hscan
    obtain ⟨taken, hs, hreads⟩ := exists_readsNumber hscan
    exact hnone taken _ hs hreads.isNumeral

theorem isSome_ofText?_iff : (ofText? s).isSome ↔ ∃ n, Numeral.scan s.toList = some (n, []) := by
  rw [ofText?]
  split
  · next numeral hscan => simp [hscan]
  · next hother =>
      simp only [Option.isSome_none, Bool.false_eq_true, false_iff, not_exists]
      exact hother

theorem isSome_ofText?_iff_isNumeral : (ofText? s).isSome ↔ IsNumeral s := by
  rw [isSome_ofText?_iff, IsNumeral, Numeral.mem_numeral]
  constructor
  · rintro ⟨n, hscan⟩
    obtain ⟨text, htext, hs⟩ := Numeral.exists_hasText hscan
    rw [List.append_nil] at hs
    exact ⟨n, hs ▸ htext⟩
  · rintro ⟨n, htext⟩
    exact ⟨n, htext.scan_eq⟩

end Strings

-- A number is read exactly if the text starts with one, and then the longest one. So a text is
-- numeric exactly if it is a number as a whole.
theorem longest_numeral_read (s : String) :
    (∀ n rest, Numeral.scan s.toList = some (n, rest) →
      ∃ taken, s = taken ++ String.ofList rest ∧ ReadsNumber s taken n.toNumber) ∧
    (Numeral.scan s.toList = none ↔ ∀ p rest, s = p ++ rest → ¬IsNumeral p) ∧
    ((ofText? s).isSome ↔ IsNumeral s) :=
  ⟨fun _ _ => exists_readsNumber, scan_eq_none_iff, isSome_ofText?_iff_isNumeral⟩

-- A power without digits is no part of the number.
theorem longest_numeral_read_unfinished :
    (∃ taken, " -12.e+" = taken ++ String.ofList ['e', '+'] ∧
      ReadsNumber " -12.e+" taken (Numeral.toNumber ⟨true, ['1', '2'], some [], none⟩)) ∧
    ¬(ofText? " -12.e+").isSome := by
  obtain ⟨hread, -, hsome⟩ := longest_numeral_read " -12.e+"
  exact ⟨hread _ _ (by decide), hsome.not.mpr (by decide)⟩

end PhpLint.Number
