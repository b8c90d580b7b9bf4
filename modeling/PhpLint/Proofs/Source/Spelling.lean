import Mathlib.Data.Bool.AllAny
import Mathlib.Data.List.Find
import PhpLint.Proofs.Source.Cut

namespace PhpLint

def CastType.spelling : CastType → String
  | int => "int"
  | float => "float"
  | string => "string"
  | bool => "bool"
  | array => "array"
  | object => "object"
  | unset => "unset"

-- In single quotes only the quote and the backslash are escaped.
def Source.escape (c : Char) : List Char :=
  if c = '\'' ∨ c = '\\' then ['\\', c] else [c]

-- How a token is written in code. Floats, and strings in which variables are substituted,
-- have no spelling of their own, and a negative number is written with an operator.
def Token.spelling? : Token → Option (List Char)
  | symbol s => some s.spelling.toList
  | cast type => some ('(' :: type.spelling.toList ++ [')'])
  | keyword k => some k.spelling.toList
  | bool true => some "true".toList
  | bool false => some "false".toList
  | null => some "null".toList
  | docComment text => some text.toList
  | var name => some ('$' :: name.toList)
  | identifier name => some name.toList
  | int n => if 0 ≤ n then some (Nat.toDigits 10 n.toNatClampNeg) else none
  | string text false => some ('\'' :: text.toList.flatMap Source.escape ++ ['\''])
  | string _ true | openTag | closeTag | inlineHtml _ | float _ => none

-- Blanks with the end of a line among them.
structure Gap where
  text : List Char
  isBlank : ∀ c ∈ text, Source.isBlankInCode c
  newline : '\n' ∈ text

namespace Source

theorem content_locate (file : String) (offset line : Nat) (segments : List Segment) :
    (locate file offset line segments).map Lexeme.content =
      segments.filterMap Segment.content := by
  induction segments generalizing offset line with
  | nil => rfl
  | cons segment segments ih =>
      rw [locate, List.filterMap_cons]
      cases segment.content with
      | none => exact ih _ _
      | some content => exact congrArg (content :: ·) (ih _ _)

theorem segments_code {c : Char} {cs : List Char} {content : Option (Except LexError Token)}
    {n : Nat} (h : readCode c cs = (content, n)) (hcode : endsCode content = false) :
    segments true (c :: cs) = ⟨c :: cs.take n, content⟩ :: segments true (cs.drop n) := by
  rw [segments, h]
  simp [hcode]

theorem readCode_blank {c : Char} (hc : isBlankInCode c) (cs : List Char) :
    readCode c cs = (none, 0) := by
  simp only [isBlankInCode, Bool.or_eq_true, beq_iff_eq] at hc
  rcases hc with ((rfl | rfl) | rfl) | rfl <;> rfl

-- By induction on the blanks.
theorem contents_blanks {blanks : List Char} (hblanks : ∀ c ∈ blanks, isBlankInCode c)
    (rest : List Char) :
    (segments true (blanks ++ rest)).filterMap Segment.content =
      (segments true rest).filterMap Segment.content := by
  induction blanks with
  | nil => rfl
  | cons c blanks ih =>
      obtain ⟨hc, hblanks⟩ := List.forall_mem_cons.mp hblanks
      rw [List.cons_append, segments_code (readCode_blank hc _) rfl]
      exact ih hblanks

-- What does not start a comment or a blank is a token.
theorem readCode_of_token {c : Char} {cs : List Char} (hhash : c ≠ '#')
    (hslash : c = '/' → ∀ d ∈ cs.head?, d ≠ '/' ∧ d ≠ '*')
    (hclose : c = '?' → ∀ d ∈ cs.head?, d ≠ '>')
    (hblank : isBlankInCode c = false) :
    readCode c cs = (some (readToken c cs).1, (readToken c cs).2) := by
  unfold readCode
  split
  · contradiction
  · exact absurd rfl (hslash rfl '/' rfl).1
  · exact absurd rfl (hslash rfl '*' rfl).2
  · exact absurd rfl (hclose rfl '>' rfl)
  · simp [hblank]

theorem readCode_of_plain {c : Char} (hc : c ∉ ['#', '/', '?', ' ', '\t', '\r', '\n'])
    (cs : List Char) : readCode c cs = (some (readToken c cs).1, (readToken c cs).2) := by
  simp only [List.mem_cons, List.not_mem_nil, or_false, not_or] at hc
  obtain ⟨hhash, hslash, hquestion, hblank⟩ := hc
  exact readCode_of_token hhash (absurd · hslash) (absurd · hquestion)
    (by simp [isBlankInCode, hblank])

theorem mem_of_isBlankInCode {b : Char} (hb : isBlankInCode b) : b ∈ [' ', '\t', '\r', '\n'] := by
  simpa [isBlankInCode, or_assoc] using hb

theorem exists_gap_cons (gap : Gap) : ∃ b blanks, gap.text = b :: blanks ∧ isBlankInCode b := by
  obtain ⟨b, blanks, htext⟩ := List.exists_cons_of_ne_nil (List.ne_nil_of_mem gap.newline)
  exact ⟨b, blanks, htext, gap.isBlank b (htext ▸ List.mem_cons_self)⟩

section Symbols

variable {b : Char} {w tail : List Char}

-- A character that is not in the first text cannot help it to be found.
theorem isPrefixOf_append_cons {p : List Char} (hb : b ∉ p) :
    p.isPrefixOf (w ++ b :: tail) = p.isPrefixOf w := by
  induction p generalizing w with
  | nil => simp
  | cons c p ih =>
      simp only [List.mem_cons, not_or] at hb
      obtain ⟨hc, hp⟩ := hb
      cases w with
      | nil => simp [List.isPrefixOf, Ne.symm hc]
      | cons d w => simp [List.isPrefixOf, ih hp]

theorem scan?_append (hb : isBlankInCode b) :
    Symbol.scan? (w ++ b :: tail) = Symbol.scan? w := by
  have hspellings : ∀ p ∈ Symbol.spellings, p.1.all fun c => isBlankInCode c = false := by
    decide
  have hsame : ∀ p ∈ Symbol.spellings, p.1.isPrefixOf (w ++ b :: tail) = p.1.isPrefixOf w := by
    intro p hp
    refine isPrefixOf_append_cons fun hmem => ?_
    simp [List.all_iff_forall_prop.mp (hspellings p hp) b hmem] at hb
  rw [Symbol.scan?, Symbol.scan?, List.find?_congr hsame]

theorem mem_symbols (s : Symbol) : s ∈ Symbol.ofThree ++ Symbol.ofTwo ++ Symbol.ofOne := by
  cases s <;> decide

theorem scan?_spelling (s : Symbol) :
    Symbol.scan? s.spelling.toList = some (s, s.spelling.toList.length) := by
  have hall : ∀ s ∈ Symbol.ofThree ++ Symbol.ofTwo ++ Symbol.ofOne,
      Symbol.scan? s.spelling.toList = some (s, s.spelling.toList.length) := by decide
  exact hall s (mem_symbols s)

-- Where a point, a slash or a question mark does not stand alone, an equals sign follows.
theorem exists_spelling_cons {s : Symbol} (hs : s ≠ .parenLeft) :
    ∃ c cs, s.spelling.toList = c :: cs ∧ c ≠ '#' ∧ c ∉ ['(', '$', '\'', '"', '\\'] ∧
      isBlankInCode c = false ∧ c.isDigit = false ∧ isWordStart c = false ∧
      (c ∈ ['.', '/', '?'] → ∀ d ∈ cs.head?, d = '=') := by
  have hne : ∀ s ∈ Symbol.ofThree ++ Symbol.ofTwo ++ Symbol.ofOne, s.spelling.toList ≠ [] := by
    decide
  have hall : ∀ s ∈ Symbol.ofThree ++ Symbol.ofTwo ++ Symbol.ofOne, s ≠ .parenLeft →
      s.spelling.toList.head?.all fun c => c ≠ '#' ∧ c ∉ ['(', '$', '\'', '"', '\\'] ∧
        isBlankInCode c = false ∧ c.isDigit = false ∧ isWordStart c = false ∧
        (c ∈ ['.', '/', '?'] → s.spelling.toList.tail.head?.all (· = '=')) := by
    decide
  obtain ⟨c, cs, hspelling⟩ := List.exists_cons_of_ne_nil (hne s (mem_symbols s))
  have hfacts := hall s (mem_symbols s) hs
  rw [hspelling, List.head?_cons, Option.all_some, decide_eq_true_eq] at hfacts
  obtain ⟨hhash, hc, hblank, hdigit, hword, hnext⟩ := hfacts
  refine ⟨c, cs, hspelling, hhash, hc, hblank, hdigit, hword, fun hmem d hd => ?_⟩
  have hequals := hnext hmem
  rwa [List.tail_cons, Option.mem_def.mp hd, Option.all_some, decide_eq_true_eq] at hequals

theorem readToken_symbol {c : Char} {cs : List Char} (hc : c ∉ ['(', '$', '\'', '"', '\\'])
    (hdigit : c.isDigit = false) (hword : isWordStart c = false)
    (hpoint : c = '.' → ∀ d ∈ cs.head?, d.isDigit = false) :
    readToken c cs = readSymbol (c :: cs) := by
  simp only [List.mem_cons, List.not_mem_nil, or_false, not_or] at hc
  obtain ⟨hparen, hdollar, hquote, hquotes, hbackslash⟩ := hc
  have hnumber : startsNumber c cs = false := by
    by_cases hc : c = '.'
    · cases hhead : cs.head? with
      | none => simp [startsNumber, hdigit, hhead]
      | some d => simp [startsNumber, hdigit, hhead, hpoint hc d hhead]
    · simp [startsNumber, hdigit, hc]
  simp [readToken, startsWord, *]

theorem reads_symbol {s : Symbol} (hs : s ≠ .parenLeft) (hb : isBlankInCode b) :
    ∃ c cs, s.spelling.toList = c :: cs ∧
      readCode c (cs ++ b :: tail) = (some (.ok (.symbol s)), cs.length) := by
  obtain ⟨c, cs, hspelling, hhash, hc, hblank, hdigit, hword, hnext⟩ := exists_spelling_cons hs
  have hhead : c ∈ ['.', '/', '?'] →
      ∀ d ∈ (cs ++ b :: tail).head?, d.isDigit = false ∧ d ∉ ['/', '*', '>'] := by
    have hplain : ∀ d ∈ ['=', ' ', '\t', '\r', '\n'], d.isDigit = false ∧ d ∉ ['/', '*', '>'] :=
      List.all_iff_forall_prop.mp (by decide)
    intro hmem d hd
    apply hplain
    cases cs with
    | nil =>
        cases hd
        exact List.mem_cons_of_mem _ (mem_of_isBlankInCode hb)
    | cons e cs => exact List.mem_cons.mpr (.inl (hnext hmem d hd))
  have hscan : Symbol.scan? (c :: (cs ++ b :: tail)) = some (s, cs.length + 1) := by
    rw [← List.cons_append, scan?_append hb, ← hspelling, scan?_spelling, hspelling]
    rfl
  have htoken : readToken c (cs ++ b :: tail) = (.ok (.symbol s), cs.length) := by
    rw [readToken_symbol hc hdigit hword, readSymbol, hscan]
    · rfl
    · rintro rfl d hd
      exact (hhead (by decide) d hd).1
  refine ⟨c, cs, hspelling, ?_⟩
  rw [readCode_of_token hhash _ _ hblank, htoken]
  · rintro rfl d hd
    have hd := (hhead (by decide) d hd).2
    simp only [List.mem_cons, not_or] at hd
    exact ⟨hd.1, hd.2.1⟩
  · rintro rfl d hd
    have hd := (hhead (by decide) d hd).2
    simp only [List.mem_cons, not_or] at hd
    exact hd.2.2.1

end Symbols

section Parentheses

-- The blanks in front of a cast's name do not include the end of a line.
theorem exists_dropWhile_isPadding (gap : Gap) (rest : List Char) :
    ∃ d more, (gap.text ++ rest).dropWhile isPadding = d :: more ∧ d ∈ ['\r', '\n'] := by
  obtain ⟨blanks, hblank, hnewline⟩ := gap
  induction blanks with
  | nil => simp at hnewline
  | cons b blanks ih =>
      obtain ⟨hb, hblank⟩ := List.forall_mem_cons.mp hblank
      by_cases hpadding : isPadding b
      · have hmem : '\n' ∈ blanks := by
          rcases List.mem_cons.mp hnewline with rfl | hmem
          · simp [isPadding] at hpadding
          · exact hmem
        simpa [hpadding] using ih hblank hmem
      · refine ⟨b, blanks ++ rest, by simp [hpadding], ?_⟩
        have hmem := mem_of_isBlankInCode hb
        simp only [isPadding, Bool.or_eq_true, beq_iff_eq, not_or] at hpadding
        simpa [hpadding.1, hpadding.2] using hmem

theorem readCast?_gap (gap : Gap) (rest : List Char) : readCast? (gap.text ++ rest) = none := by
  obtain ⟨d, more, hdrop, hd⟩ := exists_dropWhile_isPadding gap rest
  have hfacts : ∀ d ∈ ['\r', '\n'], d.isAlpha = false ∧ isPadding d = false ∧ d ≠ ')' :=
    List.all_iff_forall_prop.mp (by decide)
  obtain ⟨halpha, hpadding, hparen⟩ := hfacts d hd
  simp [readCast?, hdrop, halpha, hpadding, hparen]

theorem readCast?_append {name : List Char} (hname : ∀ c ∈ name, c.isAlpha) (tail : List Char) :
    readCast? (name ++ ')' :: tail) =
      (CastType.ofName? (String.ofList name)).map (·, name.length + 1) := by
  have hpadding : (name ++ ')' :: tail).dropWhile isPadding = name ++ ')' :: tail := by
    cases name with
    | nil => rfl
    | cons c name =>
        have hc : isPadding c = false := by
          have halpha := hname c List.mem_cons_self
          rw [isPadding, Bool.or_eq_false_iff, beq_eq_false_iff_ne, beq_eq_false_iff_ne]
          constructor <;> rintro rfl <;> contradiction
        simp [hc]
  have hlength : (name ++ ')' :: tail).length - (')' :: tail).length + 1 = name.length + 1 := by
    simp
  have hparen : (')' :: tail).dropWhile isPadding = ')' :: tail := rfl
  simp only [readCast?, hpadding, List.takeWhile_append_of_pos hname,
    List.dropWhile_append_of_pos hname]
  rw [List.takeWhile_cons_of_neg (by decide), List.dropWhile_cons_of_neg (by decide), hparen,
    hlength, List.append_nil]
  rfl

theorem reads_parenthesis (gap : Gap) (rest : List Char) :
    readCode '(' (gap.text ++ rest) = (some (.ok (.symbol .parenLeft)), 0) := by
  have htoken : readToken '(' (gap.text ++ rest) = readParenthesis (gap.text ++ rest) := rfl
  rw [readCode_of_plain (by decide), htoken, readParenthesis,
    readCast?_gap]

theorem reads_cast (type : CastType) (tail : List Char) :
    readCode '(' (type.spelling.toList ++ ')' :: tail) =
      (some (.ok (.cast type)), type.spelling.toList.length + 1) := by
  have halpha : ∀ c ∈ type.spelling.toList, c.isAlpha :=
    List.all_eq_true.mp (by cases type <;> decide)
  have hname : CastType.ofName? type.spelling = some type := by cases type <;> decide +kernel
  have htoken : readToken '(' (type.spelling.toList ++ ')' :: tail) =
      readParenthesis (type.spelling.toList ++ ')' :: tail) := rfl
  rw [readCode_of_plain (by decide), htoken, readParenthesis,
    readCast?_append halpha, String.ofList_toList, hname]
  rfl

end Parentheses

section Words

variable {b : Char} {tail : List Char}

theorem takeWhile_append_blank {p : Char → Bool} {cs : List Char} (hcs : ∀ c ∈ cs, p c)
    (hb : p b = false) : (cs ++ b :: tail).takeWhile p = cs := by
  rw [List.takeWhile_append_of_pos hcs, List.takeWhile_cons_of_neg (by simp [hb]), List.append_nil]

theorem isWordPart_blank (hb : isBlankInCode b) : isWordPart b = false := by
  have hblanks : ∀ b ∈ [' ', '\t', '\r', '\n'], isWordPart b = false :=
    List.all_iff_forall_prop.mp (by decide)
  exact hblanks b (mem_of_isBlankInCode hb)

-- A word is known by its first character, or by the two first ones.
def isWord : List Char → Bool
  | [] => false
  | c :: cs => startsWord c cs && !c.isDigit && cs.all isWordPart

theorem reads_word {c : Char} {cs : List Char} (hword : isWord (c :: cs)) (hb : isBlankInCode b) :
    readCode c (cs ++ b :: tail) =
      (some (.ok (Token.ofWord (String.ofList (c :: cs)))), cs.length) := by
  simp only [isWord, Bool.and_eq_true, Bool.not_eq_true', List.all_eq_true] at hword
  obtain ⟨⟨hstart, hdigit⟩, hcs⟩ := hword
  have hspecial : ∀ d ∈ ['#', '/', '?', ' ', '\t', '\r', '\n'] ++ ['(', '$', '\'', '"', '.'],
      isWordStart d = false ∧ d ≠ '\\' := List.all_iff_forall_prop.mp (by decide)
  have hc : c ∉ ['#', '/', '?', ' ', '\t', '\r', '\n'] ++ ['(', '$', '\'', '"', '.'] := by
    intro hmem
    obtain ⟨hword, hbackslash⟩ := hspecial c hmem
    simp [startsWord, hword, hbackslash] at hstart
  have hstart' : startsWord c (cs ++ b :: tail) := by
    cases cs with
    | nil => simpa [startsWord] using .inl (by simpa [startsWord] using hstart)
    | cons d cs => exact hstart
  rw [List.mem_append, not_or] at hc
  obtain ⟨hplain, hc⟩ := hc
  simp only [List.mem_cons, List.not_mem_nil, or_false, not_or] at hc
  obtain ⟨hparen, hdollar, hquote, hquotes, hpoint⟩ := hc
  have hnumber : startsNumber c (cs ++ b :: tail) = false := by simp [startsNumber, hdigit, hpoint]
  have htoken : readToken c (cs ++ b :: tail) = readWord c (cs ++ b :: tail) := by
    simp [readToken, hparen, hdollar, hquote, hquotes, hnumber, hstart']
  rw [readCode_of_plain hplain, htoken, readWord, takeWhile_append_blank hcs (isWordPart_blank hb)]

theorem reads_variable {name : List Char} (hname : name ≠ []) (hparts : ∀ c ∈ name, isWordPart c)
    (hb : isBlankInCode b) :
    readCode '$' (name ++ b :: tail) = (some (.ok (.var (String.ofList name))), name.length) := by
  have htoken : readToken '$' (name ++ b :: tail) = readVariable (name ++ b :: tail) := rfl
  rw [readCode_of_plain (by decide), htoken, readVariable,
    takeWhile_append_blank hparts (isWordPart_blank hb)]
  simp [hname]

end Words

section Numbers

variable {b : Char} {tail : List Char}

-- By induction on the number, whose last digit is put behind those of a tenth of it.
theorem ofDigits?_toDigits (n : Nat) : Number.ofDigits? 10 (Nat.toDigits 10 n) = some n := by
  have hdigit : ∀ d < 10, Number.digitValue? 10 d.digitChar = some d := by decide
  induction n using Nat.strongRecOn with
  | ind n ih =>
      by_cases hn : n < 10
      · rw [Nat.toDigits_of_lt_base hn]
        simp [Number.ofDigits?, hdigit n hn]
      · have hrest := ih (n / 10) (by omega)
        rw [Number.ofDigits?] at hrest
        rw [Nat.toDigits_of_base_le (by decide) (by omega), Number.ofDigits?, List.foldlM_append,
          hrest]
        simp [hdigit (n % 10) (by omega)]
        omega

-- Only zero itself starts with the digit.
theorem eq_nil_of_toDigits {n : Nat} {cs : List Char} (h : Nat.toDigits 10 n = '0' :: cs) :
    cs = [] := by
  induction n using Nat.strongRecOn generalizing cs with
  | ind n ih =>
      by_cases hn : n < 10
      · rw [Nat.toDigits_of_lt_base hn] at h
        exact (List.cons.inj h).2.symm
      · obtain ⟨c, ds, hc⟩ :=
          List.exists_cons_of_ne_nil (Nat.toDigits_ne_nil (n := n / 10) (b := 10))
        rw [Nat.toDigits_of_base_le (by decide) (by omega), hc, List.cons_append] at h
        obtain ⟨rfl, hcs⟩ := List.cons.inj h
        have hzero := ofDigits?_toDigits (n / 10)
        rw [hc, ih (n / 10) (by omega) hc] at hzero
        have : 0 = n / 10 := Option.some.inj hzero
        omega

theorem word?_natCast {n : Nat} (hn : n ≤ Int64.maxValue.toInt) :
    Number.word? n = some (Int64.ofNat n) := by
  have hmin : Int64.minValue.toInt ≤ 0 := by decide
  rw [Number.word?, if_pos ⟨by omega, hn⟩]
  rfl

-- Marks count for nothing, but there has to be a digit.
theorem integerToken_of_some {base n : Nat} {w : Int64} {digits : List Char}
    (hvalue : Number.ofDigits? base (unmarked digits) = some n) (hsome : unmarked digits ≠ [])
    (hword : Number.word? n = some w) : integerToken base digits = .ok (.int w) := by
  simp [integerToken, hvalue, hsome, hword]

theorem integerToken_toDigits {n : Nat} (hn : n ≤ Int64.maxValue.toInt) :
    integerToken 10 (Nat.toDigits 10 n) = .ok (.int (Int64.ofNat n)) := by
  have hdigits : unmarked (Nat.toDigits 10 n) = Nat.toDigits 10 n := by
    rw [unmarked, List.filter_eq_self]
    intro c hc
    have hdigit := Nat.isDigit_of_mem_toDigits (by decide) (by decide) hc
    rw [bne_iff_ne]
    rintro rfl
    exact absurd hdigit (by decide)
  have hvalue : Number.ofDigits? 10 (unmarked (Nat.toDigits 10 n)) = some n := by
    rw [hdigits, ofDigits?_toDigits]
  exact integerToken_of_some hvalue (by rw [hdigits]; exact Nat.toDigits_ne_nil) (word?_natCast hn)

-- No sign of another base, of a fraction or of a power of ten is a blank.
theorem readNumber_blank {c : Char} {cs : List Char} (hc : c.isDigit) (hcs : ∀ d ∈ cs, d.isDigit)
    (hzero : c = '0' → cs = []) (hb : isBlankInCode b) :
    readNumber c (cs ++ b :: tail) = (integerToken 10 (c :: cs), cs.length) := by
  have hfacts : ∀ b ∈ [' ', '\t', '\r', '\n'], baseOf? (some b) = none ∧ isDigitOrMark b = false ∧
      b ≠ '.' ∧ b ≠ 'e' ∧ b ≠ 'E' := List.all_iff_forall_prop.mp (by decide)
  obtain ⟨hbase, hmark, hpoint, he, hE⟩ := hfacts b (mem_of_isBlankInCode hb)
  have hmarks : ∀ d ∈ cs, isDigitOrMark d := fun d hd => by simp [isDigitOrMark, hcs d hd]
  have hfirst : c ≠ '.' := by
    rintro rfl
    exact absurd hc (by decide)
  have hlead : (cs ++ b :: tail).takeWhile isDigitOrMark = cs := takeWhile_append_blank hmarks hmark
  have hrest : (cs ++ b :: tail).dropWhile isDigitOrMark = b :: tail := by
    rw [List.dropWhile_append_of_pos hmarks, List.dropWhile_cons_of_neg (by simp [hmark])]
  have hfraction : scanFraction (b :: tail) = none := by
    unfold scanFraction
    split
    · simp_all
    · simp_all
    · rfl
  have hexponent : Number.Numeral.scanExponent (b :: tail) = (none, b :: tail) := by
    simp [Number.Numeral.scanExponent, he, hE]
  have hoctal : (c == '0' && !cs.isEmpty) = false := by
    by_cases hc : c = '0'
    · simp [hzero hc]
    · simp [hc]
  have hdecimal : readDecimal c (cs ++ b :: tail) = (integerToken 10 (c :: cs), cs.length) := by
    simp [readDecimal, hlead, hrest, hfirst, hfraction, hexponent, hoctal]
  have hnobase : (if c == '0' then baseOf? (cs ++ b :: tail).head? else none) = none := by
    by_cases hc : c = '0'
    · simp [hc, hzero hc, hbase]
    · simp [hc]
  rw [readNumber, hnobase]
  exact hdecimal

theorem readCode_digit {c : Char} (hc : c.isDigit) (cs : List Char) :
    readCode c cs = (some (readNumber c cs).1, (readNumber c cs).2) := by
  have hspecial : ∀ d ∈ ['#', '/', '?', ' ', '\t', '\r', '\n'] ++ ['(', '$', '\'', '"'],
      d.isDigit = false := List.all_iff_forall_prop.mp (by decide)
  have hplain : c ∉ ['#', '/', '?', ' ', '\t', '\r', '\n'] ++ ['(', '$', '\'', '"'] :=
    fun hmem => by simp [hspecial c hmem] at hc
  rw [List.mem_append, not_or] at hplain
  obtain ⟨hplain, hother⟩ := hplain
  simp only [List.mem_cons, List.not_mem_nil, or_false, not_or] at hother
  have htoken : readToken c cs = readNumber c cs := by
    simp [readToken, hother, startsNumber, hc]
  rw [readCode_of_plain hplain, htoken]

theorem reads_int {n : Nat} (hn : n ≤ Int64.maxValue.toInt) (hb : isBlankInCode b)
    (tail : List Char) :
    ∃ c cs, Nat.toDigits 10 n = c :: cs ∧
      readCode c (cs ++ b :: tail) = (some (.ok (.int (Int64.ofNat n))), cs.length) := by
  obtain ⟨c, cs, hdigits⟩ := List.exists_cons_of_ne_nil (Nat.toDigits_ne_nil (n := n) (b := 10))
  have hall : ∀ d ∈ c :: cs, d.isDigit := fun d hd =>
    Nat.isDigit_of_mem_toDigits (by decide) (by decide) (hdigits ▸ hd)
  obtain ⟨hc, hcs⟩ := List.forall_mem_cons.mp hall
  refine ⟨c, cs, hdigits, ?_⟩
  rw [readCode_digit hc, readNumber_blank hc hcs _ hb, ← hdigits, integerToken_toDigits hn]
  rintro rfl
  exact eq_nil_of_toDigits hdigits

end Numbers

section Strings

theorem readSingleQuoted_cons {c : Char} {text more : List Char} {n : Nat}
    (h : readSingleQuoted more = (.ok ⟨text, false⟩, n)) :
    readSingleQuoted (escape c ++ more) = (.ok ⟨c :: text, false⟩, (escape c).length + n) := by
  by_cases hc : c = '\'' ∨ c = '\\'
  · rcases hc with rfl | rfl
    · change readSingleQuoted ('\\' :: '\'' :: more) = _
      rw [readSingleQuoted, h]
      rfl
    · change readSingleQuoted ('\\' :: '\\' :: more) = _
      rw [readSingleQuoted, h]
      rfl
  · rw [escape, if_neg hc]
    rw [not_or] at hc
    change readSingleQuoted (c :: more) = _
    rw [readSingleQuoted, h]
    · rfl
    · exact hc.1
    · exact fun _ hbackslash _ => hc.2 hbackslash
    · exact fun _ hbackslash _ => hc.2 hbackslash

-- By induction on the text.
theorem readSingleQuoted_escape (text rest : List Char) :
    readSingleQuoted (text.flatMap escape ++ '\'' :: rest) =
      (.ok ⟨text, false⟩, (text.flatMap escape).length + 1) := by
  induction text with
  | nil => rfl
  | cons c text ih =>
      rw [List.flatMap_cons, List.append_assoc, readSingleQuoted_cons ih, List.length_append,
        Nat.add_assoc]

theorem reads_string (text rest : List Char) :
    readCode '\'' (text.flatMap escape ++ '\'' :: rest) =
      (some (.ok (.string (String.ofList text) false)), (text.flatMap escape).length + 1) := by
  have htoken : readToken '\'' (text.flatMap escape ++ '\'' :: rest) =
      readString (readSingleQuoted (text.flatMap escape ++ '\'' :: rest)) := rfl
  rw [readCode_of_plain (by decide), htoken, readSingleQuoted_escape]
  rfl

end Strings

section Comments

-- A comment ends with the first asterisk that has a slash after it.
theorem commentEnd?_append {body : List Char} (h : ¬ ['*', '/'] <:+: body ++ ['*'])
    (rest : List Char) : commentEnd? (body ++ '*' :: '/' :: rest) = some (body.length + 2) := by
  induction body with
  | nil => rfl
  | cons c body ih =>
      rw [List.cons_append, List.infix_cons_iff, not_or] at h
      rw [List.cons_append, commentEnd?, ih h.2]
      · rfl
      · rintro more rfl hmore
        apply h.1
        cases body with
        | nil => simp at hmore
        | cons d body =>
            obtain ⟨rfl, -⟩ := List.cons.inj hmore
            exact ⟨body ++ ['*'], rfl⟩

-- A doc comment opens with a second asterisk, which does not end it.
theorem reads_docComment {body : List Char} (h : ¬ ['*', '/'] <:+: '*' :: body ++ ['*'])
    (rest : List Char) :
    readCode '/' ('*' :: '*' :: body ++ '*' :: '/' :: rest) =
      (some (.ok (.docComment (String.ofList ('/' :: '*' :: '*' :: body ++ ['*', '/'])))),
        body.length + 4) := by
  have hend := commentEnd?_append h rest
  have hslash : ((('*' :: body ++ '*' :: '/' :: rest).drop 1).head? != some '/') = true := by
    cases body with
    | nil => rfl
    | cons d body =>
        have hd : d ≠ '/' := by
          rintro rfl
          exact h ⟨[], body ++ ['*'], rfl⟩
        simp [hd]
  have htake : ('*' :: body ++ '*' :: '/' :: rest).take (body.length + 3) =
      '*' :: body ++ ['*', '/'] := by
    rw [List.cons_append, List.take_succ_cons, List.take_length_add_append]
    rfl
  have hread : readBlockComment ('*' :: body ++ '*' :: '/' :: rest) =
      (some (.ok (.docComment (String.ofList ('/' :: '*' :: '*' :: body ++ ['*', '/'])))),
        body.length + 3) := by
    have hstar : (('*' :: body ++ '*' :: '/' :: rest).head? == some '*') = true := rfl
    simp only [readBlockComment, hend, hslash, hstar, List.length_cons, htake]
    rfl
  have hcode : readCode '/' ('*' :: '*' :: body ++ '*' :: '/' :: rest) =
      ((readBlockComment ('*' :: body ++ '*' :: '/' :: rest)).1,
        (readBlockComment ('*' :: body ++ '*' :: '/' :: rest)).2 + 1) := rfl
  rw [hcode, hread]

end Comments

end Source

end PhpLint
