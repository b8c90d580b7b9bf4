import PhpLint.Proofs.Source.Respelling

namespace PhpLint

namespace Source

-- A character with a backslash in front of it if it is a special one.
def escapeAmong (special : List Char) (c : Char) : List Char :=
  if c ∈ special then ['\\', c] else [c]

def quoteWith (quote : Char) (special text : List Char) : List Char :=
  quote :: (text.flatMap (escapeAmong special) ++ [quote])

def singleSpecial : List Char :=
  ['\\', '\'']

-- Variables are substituted after a dollar sign.
def doubleSpecial : List Char :=
  ['\\', '"', '$']

def singleQuoted (s : String) : String :=
  String.ofList (quoteWith '\'' singleSpecial s.toList)

def doubleQuoted (s : String) : String :=
  String.ofList (quoteWith '"' doubleSpecial s.toList)

-- In code the text is one token, whatever follows it.
structure IsTokenText (text : String) (token : Token) : Prop where
  inCode (rest : List Char) :
    segments true (text.toList ++ rest) = ⟨text.toList, some (.ok token)⟩ :: segments true rest
  alone (file : String) :
    (lex ("<?php" ++ text) file).map Lexeme.content = [.ok .openTag, .ok token]

-- What the lexer reads after a quote is all that has to be known of the quotes.
theorem isTokenText_quoteWith {quote : Char} {special : List Char} {s : String}
    (h : ∀ rest, readCode quote (s.toList.flatMap (escapeAmong special) ++ quote :: rest) =
      (some (.ok (.string s false)), (s.toList.flatMap (escapeAmong special)).length + 1)) :
    IsTokenText (String.ofList (quoteWith quote special s.toList)) (.string s false) := by
  have hsegments : ∀ rest, segments true (quoteWith quote special s.toList ++ rest) =
      ⟨quoteWith quote special s.toList, some (.ok (.string s false))⟩ :: segments true rest := by
    intro rest
    have hread := h rest
    rw [← List.singleton_append, ← List.append_assoc, ← List.length_singleton (a := quote),
      ← List.length_append] at hread
    rw [quoteWith, List.cons_append, segments_code hread rfl, List.take_left, List.drop_left]
  constructor
  · rwa [String.toList_ofList]
  · intro file
    have htag : "<?php".toList = openTag := rfl
    have hsegment := hsegments []
    rw [List.append_nil] at hsegment
    rw [lex, content_locate, String.toList_append, htag, String.toList_ofList, segments_openTag,
      hsegment]
    simp [segments]

theorem escape_eq_escapeAmong : escape = escapeAmong singleSpecial := by
  funext c
  simp [escape, escapeAmong, singleSpecial, or_comm]

theorem isTokenText_singleQuoted (s : String) :
    IsTokenText (singleQuoted s) (.string s false) := by
  apply isTokenText_quoteWith
  intro rest
  have hread := reads_string s.toList rest
  rwa [String.ofList_toList, escape_eq_escapeAmong] at hread

section DoubleQuotes

variable {c : Char} {text more : List Char} {n : Nat}

theorem readEscape_special (hc : c ∈ doubleSpecial) (cs : List Char) :
    readEscape (c :: cs) = (.ok [c], 1) := by
  have hall : ∀ c ∈ doubleSpecial, simpleEscape? c = some c :=
    List.all_iff_forall_prop.mp (by decide)
  simp only [readEscape, hall c hc]

theorem readDoubleQuoted_special (hc : c ∈ doubleSpecial)
    (h : readDoubleQuoted more = (.ok ⟨text, false⟩, n)) :
    readDoubleQuoted ('\\' :: c :: more) = (.ok ⟨c :: text, false⟩, 2 + n) := by
  have hquote : ('\\' == '"') = false := rfl
  have hbackslash : ('\\' == '\\') = true := rfl
  rw [readDoubleQuoted]
  simp only [hquote, hbackslash, readEscape_special hc, List.drop_succ_cons, List.drop_zero, h]
  rfl

-- Neither a dollar sign nor a brace in front of one, so nothing is substituted.
theorem readDoubleQuoted_plain (hc : c ∉ doubleSpecial) (hmore : more.head? ≠ some '$')
    (h : readDoubleQuoted more = (.ok ⟨text, false⟩, n)) :
    readDoubleQuoted (c :: more) = (.ok ⟨c :: text, false⟩, 1 + n) := by
  simp only [doubleSpecial, List.mem_cons, List.not_mem_nil, or_false, not_or] at hc
  obtain ⟨hbackslash, hquote, hdollar⟩ := hc
  have hinterpolation : startsInterpolation c more = false := by
    simp [startsInterpolation, hdollar, hmore]
  rw [readDoubleQuoted]
  simp only [beq_eq_false_iff_ne.mpr hquote, beq_eq_false_iff_ne.mpr hbackslash, hinterpolation, h]
  rfl

-- A dollar sign is written with a backslash in front of it, so no text starts with one.
theorem head?_escaped_ne (text rest : List Char) :
    (text.flatMap (escapeAmong doubleSpecial) ++ '"' :: rest).head? ≠ some '$' := by
  cases text with
  | nil => simp
  | cons c text =>
      by_cases hc : c ∈ doubleSpecial
      · simp [escapeAmong, hc]
      · have hdollar : c ≠ '$' := by
          rintro rfl
          exact hc (by decide)
        simp [escapeAmong, hc, hdollar]

-- By induction on the text.
theorem readDoubleQuoted_escaped (text rest : List Char) :
    readDoubleQuoted (text.flatMap (escapeAmong doubleSpecial) ++ '"' :: rest) =
      (.ok ⟨text, false⟩, (text.flatMap (escapeAmong doubleSpecial)).length + 1) := by
  induction text with
  | nil =>
      rw [List.flatMap_nil, List.nil_append, readDoubleQuoted]
      rfl
  | cons c text ih =>
      rw [List.flatMap_cons, List.append_assoc, List.length_append, Nat.add_assoc, escapeAmong]
      by_cases hc : c ∈ doubleSpecial
      · rw [if_pos hc]
        exact readDoubleQuoted_special hc ih
      · rw [if_neg hc]
        exact readDoubleQuoted_plain hc (head?_escaped_ne text rest) ih

end DoubleQuotes

theorem isTokenText_doubleQuoted (s : String) :
    IsTokenText (doubleQuoted s) (.string s false) := by
  apply isTokenText_quoteWith
  intro rest
  have htoken : readToken '"' (s.toList.flatMap (escapeAmong doubleSpecial) ++ '"' :: rest) =
      readString (readDoubleQuoted
        (s.toList.flatMap (escapeAmong doubleSpecial) ++ '"' :: rest)) := rfl
  rw [readCode_of_plain (by decide), htoken, readDoubleQuoted_escaped, readString, Except.map,
    Quoted.token, String.ofList_toList]

end Source

-- A text between quotes is read back as it was, if what is special there is escaped.
theorem quoted_strings_read_back (s : String) :
    Source.IsTokenText (Source.singleQuoted s) (.string s false) ∧
      Source.IsTokenText (Source.doubleQuoted s) (.string s false) :=
  ⟨Source.isTokenText_singleQuoted s, Source.isTokenText_doubleQuoted s⟩

end PhpLint
