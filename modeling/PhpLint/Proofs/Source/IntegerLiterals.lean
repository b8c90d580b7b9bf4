import PhpLint.Proofs.Number.Integers
import PhpLint.Proofs.Number.LeadingBits
import PhpLint.Proofs.Source.Respelling

namespace PhpLint

namespace Source

-- Digits in a base, the most significant one first, with marks anywhere among them.
inductive DigitText (base : ℕ) : List ℕ → List Char → Prop where
  | nil : DigitText base [] []
  | mark {ds : List ℕ} {cs : List Char} : DigitText base ds cs → DigitText base ds ('_' :: cs)
  | digit {d : ℕ} {ds : List ℕ} {c : Char} {cs : List Char} : d < base →
      c = d.digitChar ∨ c = d.digitChar.toUpper → DigitText base ds cs →
      DigitText base (d :: ds) (c :: cs)

-- The beginnings of literals that are not decimal.
inductive BaseText : ℕ → List Char → Prop where
  | binary {c : Char} : c = 'b' ∨ c = 'B' → BaseText 2 ['0', c]
  | octal : BaseText 8 ['0']
  | octalLetter {c : Char} : c = 'o' ∨ c = 'O' → BaseText 8 ['0', c]
  | hexadecimal {c : Char} : c = 'x' ∨ c = 'X' → BaseText 16 ['0', c]

-- The literals of an integer with its base and its digits.
inductive IntegerText : ℕ → List ℕ → List Char → Prop where
  | zero : IntegerText 10 [0] ['0']
  | decimal {d : ℕ} {ds : List ℕ} {cs : List Char} : 0 < d → d < 10 → DigitText 10 ds cs →
      IntegerText 10 (d :: ds) (d.digitChar :: cs)
  | based {base : ℕ} {ds : List ℕ} {lead cs : List Char} : BaseText base lead →
      DigitText base ds cs → ds ≠ [] → IntegerText base ds (lead ++ cs)

section Digits

variable {base : ℕ} {ds : List ℕ} {cs : List Char}

theorem digitValue?_digitChar {d : ℕ} {c : Char} (hbase : base ≤ 16) (hd : d < base)
    (hc : c = d.digitChar ∨ c = d.digitChar.toUpper) : Number.digitValue? base c = some d := by
  have hall : ∀ base ≤ 16, ∀ d < base, Number.digitValue? base d.digitChar = some d ∧
      Number.digitValue? base d.digitChar.toUpper = some d := by decide
  rcases hc with rfl | rfl
  · exact (hall base hbase d hd).1
  · exact (hall base hbase d hd).2

theorem unmarked_digit {d : ℕ} {c : Char} (h : Number.digitValue? base c = some d) :
    unmarked (c :: cs) = c :: unmarked cs := by
  have hmark : Number.digitValue? base '_' = none := rfl
  rw [unmarked, List.filter_cons_of_pos, unmarked]
  rw [bne_iff_ne]
  rintro rfl
  cases hmark.symm.trans h

-- By induction on the text: what is done with the characters is done with the digits.
theorem DigitText.foldlM_eq {β : Type} (f : β → ℕ → β) (hbase : base ≤ 16)
    (h : DigitText base ds cs) (s : β) :
    (unmarked cs).foldlM (fun s c => (Number.digitValue? base c).map (f s)) s =
      some (ds.foldl f s) := by
  induction h generalizing s with
  | nil => rfl
  | mark _ ih => exact ih s
  | @digit d ds c cs hd hc _ ih =>
      have hvalue := digitValue?_digitChar hbase hd hc
      rw [unmarked_digit hvalue, List.foldlM_cons, hvalue, Option.map_some, List.foldl_cons]
      exact ih (f s d)

theorem DigitText.digit_lt (h : DigitText base ds cs) : ∀ d ∈ ds, d < base := by
  induction h with
  | nil => simp
  | mark _ ih => exact ih
  | digit hd _ _ ih => exact List.forall_mem_cons.mpr ⟨hd, ih⟩

theorem foldl_digits (base : ℕ) (ds : List ℕ) :
    ds.foldl (fun n d => base * n + d) 0 = Nat.ofDigits base ds.reverse := by
  rw [Nat.ofDigits_eq_foldr, List.foldr_reverse]
  simp only [Nat.cast_id, add_comm]

theorem DigitText.ofDigits?_eq (hbase : base ≤ 16) (h : DigitText base ds cs) :
    Number.ofDigits? base (unmarked cs) = some (Nat.ofDigits base ds.reverse) := by
  rw [Number.ofDigits?, h.foldlM_eq (fun n d => base * n + d) hbase, foldl_digits]

theorem DigitText.unmarked_ne_nil (hbase : base ≤ 16) (h : DigitText base ds cs) (hds : ds ≠ []) :
    unmarked cs ≠ [] := by
  induction h with
  | nil => exact absurd rfl hds
  | mark _ ih => exact ih hds
  | @digit d ds c cs hd hc _ ih =>
      rw [unmarked_digit (digitValue?_digitChar hbase hd hc)]
      exact List.cons_ne_nil _ _

-- A digit of a base is a digit of every greater one.
theorem DigitText.isHexDigit (hbase : base ≤ 16) (h : DigitText base ds cs) :
    ∀ c ∈ cs, (Number.isHexDigit c || c == '_') = true := by
  induction h with
  | nil => simp
  | mark _ ih => exact List.forall_mem_cons.mpr ⟨rfl, ih⟩
  | @digit d ds c cs hd hc _ ih =>
      have hvalue := digitValue?_digitChar le_rfl (hd.trans_le hbase) hc
      refine List.forall_mem_cons.mpr ⟨?_, ih⟩
      rw [Number.isHexDigit, hvalue]
      rfl

theorem DigitText.isDigitOrMark (hbase : base ≤ 10) (h : DigitText base ds cs) :
    ∀ c ∈ cs, Source.isDigitOrMark c = true := by
  have hall : ∀ d < 10, Source.isDigitOrMark d.digitChar = true ∧
      Source.isDigitOrMark d.digitChar.toUpper = true := by decide
  induction h with
  | nil => simp
  | mark _ ih => exact List.forall_mem_cons.mpr ⟨rfl, ih⟩
  | @digit d ds c cs hd hc _ ih =>
      refine List.forall_mem_cons.mpr ⟨?_, ih⟩
      rcases hc with rfl | rfl
      · exact (hall d (hd.trans_le hbase)).1
      · exact (hall d (hd.trans_le hbase)).2

end Digits

section Reading

variable {base : ℕ} {ds : List ℕ} {cs : List Char}

-- The token of an integer: a word if it is one, otherwise the nearest double.
inductive Denotes (n : ℕ) : Token → Prop where
  | word {w : Int64} : n < 2 ^ 63 → w.toInt = n → Denotes n (.int w)
  | double {x : Float} : 2 ^ 63 ≤ n → Number.IsNearestDouble n x → Denotes n (.float x)

-- Decimal digits are converted whole, the others by their leading bits.
theorem DigitText.exists_wideInteger (hbase : base ∈ [2, 8, 10, 16]) (h : DigitText base ds cs)
    (hlength : ds.length < 2 ^ 28) (hn : 2 ^ 63 ≤ Nat.ofDigits base ds.reverse) :
    ∃ x, Number.wideInteger? base (unmarked cs) = some x ∧
      Number.IsNearestDouble (Nat.ofDigits base ds.reverse : ℕ) x := by
  have hbits : ∀ width ≤ 4, base = 2 ^ width → Number.digitBits? base = some width →
      ∃ x, Number.wideInteger? base (unmarked cs) = some x ∧
        Number.IsNearestDouble (Nat.ofDigits base ds.reverse : ℕ) x := by
    rintro width hwidth rfl hdigit
    obtain ⟨e, he, hleads⟩ :=
      Number.leads_empty.foldl_push (hwidth.trans (by decide : 4 ≤ 128)) h.digit_lt
    rw [foldl_digits] at hleads
    have hmany : width * ds.length ≤ 4 * ds.length := Nat.mul_le_mul_right _ hwidth
    refine ⟨_, ?_, hleads.isNearestDouble hwidth hn (by omega)⟩
    rw [Number.wideInteger?, hdigit]
    simp only [Number.LeadingBits.ofDigits?]
    rw [h.foldlM_eq _ (Nat.pow_le_pow_right two_pos hwidth), Option.map_some]
  simp only [List.mem_cons, List.not_mem_nil, or_false] at hbase
  rcases hbase with rfl | rfl | rfl | rfl
  · exact hbits 1 (by decide) rfl rfl
  · exact hbits 3 (by decide) rfl rfl
  · refine ⟨_, ?_, Number.isNearestDouble_toFloat (by omega)⟩
    have hdigit : Number.digitBits? 10 = none := rfl
    rw [Number.wideInteger?, hdigit]
    simp only [h.ofDigits?_eq (by decide), Option.map_some]
  · exact hbits 4 (by decide) rfl rfl

theorem DigitText.exists_integerToken (hbase : base ∈ [2, 8, 10, 16]) (h : DigitText base ds cs)
    (hds : ds ≠ []) (hlength : ds.length < 2 ^ 28) :
    ∃ token, integerToken base cs = .ok token ∧ Denotes (Nat.ofDigits base ds.reverse) token := by
  have hle : ∀ base ∈ [2, 8, 10, 16], base ≤ 16 := by decide
  have hvalue := h.ofDigits?_eq (hle base hbase)
  have hsome := h.unmarked_ne_nil (hle base hbase) hds
  by_cases hn : Nat.ofDigits base ds.reverse < 2 ^ 63
  · have hfits : Number.Fits (Nat.ofDigits base ds.reverse : ℕ) := by
      constructor <;> omega
    exact ⟨_, integerToken_of_some hvalue hsome (Number.word?_of_fits hfits),
      .word hn (Number.toInt_ofInt_of_fits hfits)⟩
  · have hfits : ¬Number.Fits (Nat.ofDigits base ds.reverse : ℕ) := by
      rintro ⟨-, hlt⟩
      omega
    obtain ⟨x, hwide, hnearest⟩ := h.exists_wideInteger hbase hlength (not_lt.mp hn)
    refine ⟨.float x, ?_, .double (not_lt.mp hn) hnearest⟩
    simp [integerToken, hsome, hvalue, Number.word?_of_not_fits hfits, hwide]

theorem baseOf?_digitOrMark {c : Char} (h : isDigitOrMark c = true) : baseOf? (some c) = none := by
  have hletters : ∀ d ∈ ['x', 'X', 'b', 'B', 'o', 'O'], isDigitOrMark d = false :=
    List.all_iff_forall_prop.mp (by decide)
  have hc : c ∉ ['x', 'X', 'b', 'B', 'o', 'O'] := fun hmem => by simp [hletters c hmem] at h
  simp only [List.mem_cons, List.not_mem_nil, or_false, not_or] at hc
  simp [baseOf?, hc]

-- At the end of a text there is neither a fraction nor a power of ten.
theorem readNumber_digits {c : Char} (hc : c ≠ '.') (hcs : ∀ d ∈ cs, isDigitOrMark d = true) :
    readNumber c cs =
      (if c = '0' ∧ cs ≠ [] then integerToken 8 cs else integerToken 10 (c :: cs), cs.length) := by
  have hlead := List.takeWhile_eq_self_iff.mpr hcs
  have hrest := List.dropWhile_eq_nil_iff.mpr hcs
  have hbase : (if c == '0' then baseOf? cs.head? else none) = none := by
    rw [ite_eq_right_iff]
    intro _
    cases cs with
    | nil => rfl
    | cons d cs => exact baseOf?_digitOrMark (hcs d List.mem_cons_self)
  rw [readNumber, hbase]
  simp [readDecimal, hlead, hrest, hc, scanFraction, Number.Numeral.scanExponent]

theorem readNumber_based {c : Char} (hc : baseOf? (some c) = some base)
    (hcs : ∀ d ∈ cs, (Number.isHexDigit d || d == '_') = true) :
    readNumber '0' (c :: cs) = (integerToken base cs, cs.length + 1) := by
  have hdigits := List.takeWhile_eq_self_iff.mpr hcs
  simp only [readNumber, List.head?_cons, beq_self_eq_true, if_true, hc, List.drop_succ_cons,
    List.drop_zero, hdigits]

theorem readNumber_baseText {lead : List Char} (hlead : BaseText base lead)
    (h : DigitText base ds cs) (hds : ds ≠ []) :
    ∃ more, lead ++ cs = '0' :: more ∧ base ∈ [2, 8, 10, 16] ∧
      readNumber '0' more = (integerToken base cs, more.length) := by
  have hletter : ∀ c, baseOf? (some c) = some base → base ≤ 16 →
      readNumber '0' (c :: cs) = (integerToken base cs, (c :: cs).length) := by
    intro c hc hbase
    rw [readNumber_based hc (h.isHexDigit hbase), List.length_cons]
  cases hlead with
  | octal =>
      refine ⟨cs, rfl, by decide, ?_⟩
      have hcs : cs ≠ [] := by
        rintro rfl
        cases h
        exact hds rfl
      rw [readNumber_digits (by decide) (h.isDigitOrMark (by decide)), if_pos ⟨rfl, hcs⟩]
  | binary hc | octalLetter hc | hexadecimal hc =>
      rcases hc with rfl | rfl <;> exact ⟨_, rfl, by decide, hletter _ rfl (by decide)⟩

theorem IntegerText.exists_readNumber {text : List Char} (h : IntegerText base ds text)
    (hlength : ds.length < 2 ^ 28) :
    ∃ c cs token, text = c :: cs ∧ c.isDigit = true ∧ readNumber c cs = (.ok token, cs.length) ∧
      Denotes (Nat.ofDigits base ds.reverse) token := by
  cases h with
  | zero => exact ⟨'0', [], .int 0, rfl, rfl, rfl, .word (by decide) rfl⟩
  | @decimal d ds cs hpos hlt h =>
      have hall : ∀ d < 10, d.digitChar.isDigit = true ∧ d.digitChar ≠ '.' ∧
        (0 < d → d.digitChar ≠ '0') := by decide
      obtain ⟨hdigit, hpoint, hzero⟩ := hall d hlt
      have hwhole : DigitText 10 (d :: ds) (d.digitChar :: cs) := .digit hlt (.inl rfl) h
      obtain ⟨token, htoken, hdenotes⟩ :=
        hwhole.exists_integerToken (by decide) (List.cons_ne_nil _ _) hlength
      refine ⟨d.digitChar, cs, token, rfl, hdigit, ?_, hdenotes⟩
      rw [readNumber_digits hpoint (h.isDigitOrMark le_rfl), if_neg (fun hc => hzero hpos hc.1),
        htoken]
  | based hlead h hds =>
      obtain ⟨more, htext, hbase, hread⟩ := readNumber_baseText hlead h hds
      obtain ⟨token, htoken, hdenotes⟩ := h.exists_integerToken hbase hds hlength
      exact ⟨'0', more, token, htext, rfl, htoken ▸ hread, hdenotes⟩

theorem Denotes.endsCode {n : ℕ} {token : Token} (h : Denotes n token) :
    Source.endsCode (some (.ok token)) = false := by
  cases h <;> rfl

theorem lex_integerText {text : String} (h : IntegerText base ds text.toList)
    (hlength : ds.length < 2 ^ 28) (file : String) :
    ∃ token, (lex ("<?php " ++ text) file).map Lexeme.content = [.ok .openTag, .ok token] ∧
      Denotes (Nat.ofDigits base ds.reverse) token := by
  obtain ⟨c, cs, token, htext, hc, hread, hdenotes⟩ := h.exists_readNumber hlength
  have hcode : readCode c cs = (some (.ok token), cs.length) := by
    rw [readCode_digit hc, hread]
  have htag : "<?php ".toList = openTag ++ [' '] := rfl
  refine ⟨token, ?_, hdenotes⟩
  rw [lex, content_locate, String.toList_append, htag, List.append_assoc, segments_openTag,
    List.filterMap_cons]
  have hblank : ∀ c ∈ [' '], isBlankInCode c := List.all_iff_forall_prop.mp (by decide)
  rw [contents_blanks hblank, htext, segments_code hcode hdenotes.endsCode, List.drop_length,
    segments]
  rfl

end Reading

-- An integer literal has its value, or the double nearest to that.
theorem integer_literals_denote {base : ℕ} {ds : List ℕ} {text : String}
    (h : IntegerText base ds text.toList) (hlength : ds.length < 2 ^ 28) (file : String) :
    let n := Nat.ofDigits base ds.reverse
    ∃ token, (lex ("<?php " ++ text) file).map Lexeme.content = [.ok .openTag, .ok token] ∧
      (n ≤ 2 ^ 63 - 1 → ∃ w : Int64, token = .int w ∧ w.toInt = n) ∧
      (2 ^ 63 - 1 < n → ∃ x, token = .float x ∧ Number.IsNearestDouble n x) := by
  obtain ⟨token, hlex, hdenotes⟩ := lex_integerText h hlength file
  refine ⟨token, hlex, ?_, ?_⟩
  · intro hn
    cases hdenotes with
    | word _ hw => exact ⟨_, rfl, hw⟩
    | double hlarge _ => omega
  · intro hn
    cases hdenotes with
    | word hsmall _ => omega
    | double _ hnearest => exact ⟨_, rfl, hnearest⟩

theorem digitText_map {base : ℕ} {ds : List ℕ} (h : ∀ d ∈ ds, d < base) :
    DigitText base ds (ds.map Nat.digitChar) := by
  induction ds with
  | nil => exact .nil
  | cons d ds ih =>
      obtain ⟨hd, hds⟩ := List.forall_mem_cons.mp h
      exact .digit hd (.inl rfl) (ih hds)

-- The integer has 160 bits and is just above the middle of two doubles, by its last bit only.
theorem integer_literals_denote_aboveTie :
    IntegerText 16 (8 :: List.replicate 12 0 ++ 4 :: List.replicate 25 0 ++ [1])
        "0x_8000000000000400000000000000000000000001".toList ∧
      ∃ token, (lex ("<?php " ++ "0x_8000000000000400000000000000000000000001") "a.php").map
          Lexeme.content = [.ok .openTag, .ok token] ∧
        ∃ x, token = .float x ∧ Number.IsNearestDouble (2 ^ 159 + 2 ^ 106 + 1 : ℕ) x := by
  have htext : IntegerText 16 (8 :: List.replicate 12 0 ++ 4 :: List.replicate 25 0 ++ [1])
      "0x_8000000000000400000000000000000000000001".toList := by
    have hdigits := @digitText_map 16 (8 :: List.replicate 12 0 ++ 4 :: List.replicate 25 0 ++ [1])
      (List.all_iff_forall_prop.mp (by decide))
    exact .based (.hexadecimal (.inl rfl)) (.mark hdigits) (List.cons_ne_nil _ _)
  obtain ⟨token, hlex, -, hfloat⟩ := integer_literals_denote htext (by decide) "a.php"
  have hvalue :
      Nat.ofDigits 16 (8 :: List.replicate 12 0 ++ 4 :: List.replicate 25 0 ++ [1]).reverse =
        2 ^ 159 + 2 ^ 106 + 1 := by decide
  rw [hvalue] at hfloat
  exact ⟨htext, token, hlex, hfloat (by decide)⟩

end Source

end PhpLint
