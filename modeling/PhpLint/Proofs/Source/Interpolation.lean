import Mathlib.Data.List.TakeWhile
import PhpLint.Proofs.Source.Spelling
import PhpLint.Syntax.Expression

namespace PhpLint

namespace Source

-- How the substitution of a variable begins: with a dollar sign in front of its name, with
-- a brace in front of the dollar sign, or with a brace after the dollar sign.
inductive Opening where
  | named | braced | dollarBraced
  deriving DecidableEq

def Opening.begins (c d : Char) : Opening → Bool
  | named => c == '$' && isWordStart d
  | braced => c == '\x7b' && d == '$'
  | dollarBraced => c == '$' && d == '\x7b'

-- A backslash escapes the character after it unless it is escaped itself.
def escapesNext (escaped : Bool) (c : Char) : Bool :=
  c == '\\' && !escaped

-- Variables are substituted from some place on whose first character is not escaped. The
-- flag says whether the text follows a backslash that escapes.
def OpensFrom (escaped : Bool) (opening : Opening) (raw : List Char) : Prop :=
  ∃ before c d after, raw = before ++ c :: d :: after ∧
    before.foldl escapesNext escaped = false ∧ opening.begins c d = true

def Opens (opening : Opening) (raw : List Char) : Prop :=
  OpensFrom false opening raw

section Openings

variable {opening : Opening} {escaped : Bool} {c : Char} {raw : List Char}

theorem opensFrom_cons :
    OpensFrom escaped opening (c :: raw) ↔
      (escaped = false ∧ ∃ d ∈ raw.head?, opening.begins c d = true) ∨
        OpensFrom (escapesNext escaped c) opening raw := by
  constructor
  · rintro ⟨_ | ⟨b, before⟩, x, d, after, hraw, hfree, hbegins⟩
    · obtain ⟨rfl, rfl⟩ := List.cons.inj hraw
      exact .inl ⟨hfree, d, rfl, hbegins⟩
    · obtain ⟨rfl, rfl⟩ := List.cons.inj hraw
      exact .inr ⟨before, x, d, after, rfl, hfree, hbegins⟩
  · rintro (⟨hfree, d, hd, hbegins⟩ | ⟨before, x, d, after, rfl, hfree, hbegins⟩)
    · obtain ⟨after, rfl⟩ := List.head?_eq_some_iff.mp hd
      exact ⟨[], c, d, after, rfl, hfree, hbegins⟩
    · exact ⟨c :: before, x, d, after, rfl, hfree, hbegins⟩

theorem not_opensFrom_nil : ¬ OpensFrom escaped opening [] := by
  rintro ⟨before, c, d, after, hraw, -⟩
  simp at hraw

-- What a backslash and the character after it open is opened after both.
theorem opensFrom_escape (e : Char) :
    OpensFrom false opening ('\\' :: e :: raw) ↔ OpensFrom false opening raw := by
  have hbackslash : ∀ d, opening.begins '\\' d = false := by
    cases opening <;> simp [Opening.begins]
  simp [opensFrom_cons, hbackslash, escapesNext]

-- A character that opens nothing together with the next one.
theorem opensFrom_plain (hbackslash : c ≠ '\\')
    (hnext : ∀ d ∈ raw.head?, opening.begins c d = false) :
    OpensFrom false opening (c :: raw) ↔ OpensFrom false opening raw := by
  have hfree : escapesNext false c = false := by simp [escapesNext, hbackslash]
  rw [opensFrom_cons, hfree, or_iff_right]
  rintro ⟨-, d, hd, hbegins⟩
  simp [hnext d hd] at hbegins

end Openings

section Escapes

variable {cs digits : List Char}

-- Characters that open nothing, whatever follows them.
def IsInert (cs : List Char) : Prop :=
  ∀ opening rest, OpensFrom false opening (cs ++ rest) ↔ OpensFrom false opening rest

theorem isInert_of_forall (h : ∀ c ∈ cs, c ∉ ['\\', '$', '\x7b']) : IsInert cs := by
  intro opening rest
  induction cs with
  | nil => exact Iff.rfl
  | cons c cs ih =>
      obtain ⟨hc, hcs⟩ := List.forall_mem_cons.mp h
      simp only [List.mem_cons, List.not_mem_nil, or_false, not_or] at hc
      obtain ⟨hbackslash, hdollar, hbrace⟩ := hc
      rw [List.cons_append, opensFrom_plain hbackslash _, ih hcs]
      intro d _
      cases opening <;> simp [Opening.begins, hdollar, hbrace]

theorem isInert_digits {base : Nat} (h : ∀ c ∈ digits, (Number.digitValue? base c).isSome) :
    IsInert digits := by
  have hspecial : ∀ c ∈ ['\\', '$', '\x7b'], Number.digitValue? base c = none := by
    simp [Number.digitValue?]
  refine isInert_of_forall fun c hc hmem => ?_
  simpa [hspecial c hmem] using h c hc

-- The brace is in front of a digit and not of a dollar sign.
theorem isInert_codePoint (hne : digits ≠ []) (h : ∀ c ∈ digits, Number.isHexDigit c) :
    IsInert ('\x7b' :: digits ++ ['\x7d']) := by
  intro opening rest
  obtain ⟨d, ds, rfl⟩ := List.exists_cons_of_ne_nil hne
  have hd : d ≠ '$' := by
    rintro rfl
    exact absurd (h '$' List.mem_cons_self) (by decide)
  have hclosing : IsInert ['\x7d'] := isInert_of_forall (by simp)
  have hbrace : ∀ e ∈ (d :: ds ++ ['\x7d'] ++ rest).head?, opening.begins '\x7b' e = false := by
    rintro e ⟨⟩
    cases opening <;> simp [Opening.begins, hd]
  rw [List.cons_append, List.cons_append, opensFrom_plain (by decide) hbrace, List.append_assoc,
    isInert_digits h, hclosing]

theorem isInert_readCodePoint {x : List Char} {n : Nat} (h : readCodePoint cs = (.ok x, n)) :
    ∃ digits rest, cs = digits ++ '\x7d' :: rest ∧ n = digits.length + 1 ∧
      IsInert ('\x7b' :: digits ++ ['\x7d']) := by
  simp only [readCodePoint] at h
  split at h
  · next hvalid =>
      simp only [Bool.and_eq_true, beq_iff_eq, Bool.not_eq_true', List.isEmpty_eq_false_iff]
        at hvalid
      obtain ⟨⟨hclosed, hne⟩, -⟩ := hvalid
      obtain ⟨-, hn⟩ := Prod.mk.inj h
      obtain ⟨rest, hrest⟩ := List.head?_eq_some_iff.mp hclosed
      refine ⟨cs.takeWhile Number.isHexDigit, rest, ?_, ?_, isInert_codePoint hne fun c hc =>
        List.mem_takeWhile_imp hc⟩
      · conv_lhs => rw [← List.take_append_drop (cs.takeWhile Number.isHexDigit).length cs]
        rw [take_length_takeWhile, hrest]
      · simpa [hclosed] using hn.symm
  · cases h

-- An escape takes the character after the backslash and more that opens nothing.
theorem exists_of_readEscape {x : List Char} {n : Nat} (h : readEscape cs = (.ok x, n)) :
    ∃ e more rest, cs = e :: more ++ rest ∧ n = more.length + 1 ∧ IsInert more := by
  have hnil : IsInert [] := isInert_of_forall (by simp)
  have hdigits : ∀ base (rest : List Char),
      IsInert ((rest.take 2).takeWhile fun c => (Number.digitValue? base c).isSome) :=
    fun base rest => isInert_digits fun c hc =>
      List.mem_takeWhile_imp (p := fun c => (Number.digitValue? base c).isSome) hc
  have hprefix : ∀ p (rest : List Char), (rest.take 2).takeWhile p <+: rest := fun p rest =>
    (List.takeWhile_prefix p).trans (List.take_prefix 2 rest)
  cases cs with
  | nil => cases h
  | cons c rest =>
      simp only [readEscape] at h
      split at h
      · cases h
        exact ⟨c, [], rest, rfl, rfl, hnil⟩
      · split at h
        · cases h
          obtain ⟨more, hmore⟩ := hprefix Number.isOctalDigit rest
          exact ⟨c, _, more, by rw [List.cons_append, hmore], rfl, hdigits 8 rest⟩
        · split at h
          · cases h
            obtain ⟨more, hmore⟩ := hprefix Number.isHexDigit rest
            exact ⟨c, _, more, by rw [List.cons_append, hmore], rfl, hdigits 16 rest⟩
          · split at h
            · next hcode =>
                rw [Bool.and_eq_true, beq_iff_eq, beq_iff_eq] at hcode
                obtain ⟨more, rfl⟩ := List.head?_eq_some_iff.mp hcode.2
                cases hread : readCodePoint more with
                | mk result taken =>
                    rw [List.drop_succ_cons, List.drop_zero, hread] at h
                    cases h
                    obtain ⟨digits, rest, rfl, rfl, hinert⟩ := isInert_readCodePoint hread
                    exact ⟨c, _, rest, by simp, by simp, hinert⟩
            · cases h
              exact ⟨c, [], rest, rfl, rfl, hnil⟩

end Escapes

-- At the closing quote nothing is substituted.
theorem startsInterpolation_iff {c : Char} {raw rest : List Char} :
    startsInterpolation c (raw ++ '"' :: rest) = true ↔
      (∃ d ∈ raw.head?, Opening.named.begins c d = true) ∨
        ∃ d ∈ raw.head?, Opening.braced.begins c d = true := by
  cases raw with
  | nil => simp [startsInterpolation, isWordStart, Text.isWideLetter]
  | cons d raw => simp [startsInterpolation, Opening.begins]

-- By induction along the reader, one character or escape at a time.
theorem interpolated_iff_opens {cs : List Char} {q : Quoted} {n : Nat}
    (h : readDoubleQuoted cs = (.ok q, n)) :
    ∃ raw rest, cs = raw ++ '"' :: rest ∧ n = raw.length + 1 ∧
      (q.interpolated = true ↔ Opens .named raw ∨ Opens .braced raw) := by
  fun_induction readDoubleQuoted cs generalizing q n with
  | case1 => cases h
  | case2 c cs hquote =>
      cases h
      rw [beq_iff_eq] at hquote
      exact ⟨[], cs, by rw [hquote]; rfl, rfl, by simp [Opens, not_opensFrom_nil]⟩
  | case3 c cs hquote hbackslash x taken hescape ih =>
      obtain ⟨e, more, rest, rfl, rfl, hinert⟩ := exists_of_readEscape hescape
      have hdrop : (e :: more ++ rest).drop (more.length + 1) = rest := List.drop_left
      rw [hdrop] at ih h
      cases hread : readDoubleQuoted rest with
      | mk result m =>
          rw [hread] at h
          cases result with
          | error error => cases h
          | ok tail =>
              cases h
              obtain ⟨raw, after, rfl, rfl, htail⟩ := ih hread
              refine ⟨'\\' :: e :: (more ++ raw), after, ?_, ?_, ?_⟩
              · rw [beq_iff_eq.mp hbackslash]
                simp
              · simp
                omega
              · have hsame : ∀ opening, Opens opening ('\\' :: e :: (more ++ raw)) ↔
                    Opens opening raw :=
                  fun opening => (opensFrom_escape e).trans (hinert opening raw)
                rw [hsame, hsame, ← htail]
                rfl
  | case4 c cs hquote hbackslash error taken hescape => cases h
  | case5 c cs hquote hbackslash ih =>
      cases hread : readDoubleQuoted cs with
      | mk result m =>
          rw [hread] at h
          cases result with
          | error error => cases h
          | ok tail =>
              cases h
              obtain ⟨raw, after, rfl, rfl, htail⟩ := ih hread
              refine ⟨c :: raw, after, rfl, by simp; omega, ?_⟩
              have hfree : escapesNext false c = false := by
                simpa [escapesNext] using hbackslash
              simp only [Opens, opensFrom_cons, hfree, true_and]
              rw [Bool.or_eq_true, startsInterpolation_iff, htail]
              exact or_or_or_comm

-- A string is an operand by itself, and its text is known unless variables are substituted.
theorem operandOf_quoted (q : Quoted) (nested : Syntax.Nested) (location : Location) :
    Syntax.operandOf nested (q.token, location) =
      pure (if q.interpolated then .interpolated location
        else .literal (.string (String.ofList q.text)) location) := by
  obtain ⟨text, interpolated⟩ := q
  cases interpolated <;> rfl

end Source

open Source

-- Between double quotes a variable is noticed where it begins with a dollar sign and its
-- name or with a brace, unless the first of these characters is escaped, and then the text
-- is not taken for a constant. So a brace after the dollar sign is noticed only beside them.
theorem interpolation_detected_iff {cs : List Char} {q : Quoted} {n : Nat}
    (h : readDoubleQuoted cs = (.ok q, n)) :
    ∃ raw rest, cs = raw ++ '"' :: rest ∧ n = raw.length + 1 ∧
      (q.interpolated = true ↔ Opens .named raw ∨ Opens .braced raw) ∧
      ((q.interpolated = true ↔ ∃ opening, Opens opening raw) ↔
        (Opens .dollarBraced raw → Opens .named raw ∨ Opens .braced raw)) ∧
      ∀ nested location, Syntax.operandOf nested (q.token, location) =
        pure (if q.interpolated then .interpolated location
          else .literal (.string (String.ofList q.text)) location) := by
  obtain ⟨raw, rest, hcs, hn, hdetected⟩ := interpolated_iff_opens h
  have hany : (∃ opening, Opens opening raw) ↔
      (Opens .named raw ∨ Opens .braced raw) ∨ Opens .dollarBraced raw := by
    constructor
    · rintro ⟨_ | _ | _, hopens⟩
      · exact .inl (.inl hopens)
      · exact .inl (.inr hopens)
      · exact .inr hopens
    · rintro ((hopens | hopens) | hopens) <;> exact ⟨_, hopens⟩
  refine ⟨raw, rest, hcs, hn, hdetected, ?_, operandOf_quoted q⟩
  rw [hdetected, hany, iff_self_or]

theorem interpolation_detected_braced :
    let raw := "\\$a \x7b$b\x7d".toList
    readDoubleQuoted (raw ++ '"' :: " .".toList) = (.ok ⟨"$a \x7b$b\x7d".toList, true⟩, 9) ∧
      (Opens .named raw ∨ Opens .braced raw) := by
  intro raw
  have hread : readDoubleQuoted (raw ++ '"' :: " .".toList) =
      (.ok ⟨"$a \x7b$b\x7d".toList, true⟩, 9) := by decide +kernel
  obtain ⟨found, rest, hcs, hn, hdetected, -⟩ := interpolation_detected_iff hread
  have hraw : raw = found := (List.append_inj hcs (Nat.succ.inj hn)).1
  exact ⟨hread, hraw ▸ hdetected.mp rfl⟩

-- The text is taken for a constant, although a variable is substituted in it.
theorem interpolation_missed :
    readDoubleQuoted "$\x7ba\x7d\"".toList = (.ok ⟨"$\x7ba\x7d".toList, false⟩, 5) ∧
      Opens .dollarBraced "$\x7ba\x7d".toList :=
  ⟨by decide +kernel, [], '$', '\x7b', _, rfl, rfl, rfl⟩

end PhpLint
