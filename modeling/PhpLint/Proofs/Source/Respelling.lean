import PhpLint.Proofs.Source.Spelling

namespace PhpLint

open Source

-- The texts that tokens carry are as the rules for names and comments have it.
def Token.IsProper : Token → Prop
  | docComment text => ∃ body, text.toList = '/' :: '*' :: '*' :: body ++ ['*', '/'] ∧
      ¬ ['*', '/'] <:+: '*' :: body ++ ['*']
  | var name => name.toList ≠ [] ∧ ∀ c ∈ name.toList, isWordPart c
  | identifier name => isWord name.toList ∧ Token.ofWord name = .identifier name
  | _ => True

-- A token that stands for any text carries none.
theorem Token.isProper_of_spells {token : Token} (h : ∀ text, token.Spells text) :
    token.IsProper := by
  cases token with
  | docComment text | identifier text => cases (h []).trans (h ['a']).symm
  | var name => cases h []
  | _ => trivial

namespace Source

theorem isProper_readVariable {cs : List Char} {token : Token} {n : Nat}
    (h : readVariable cs = (.ok token, n)) : token.IsProper := by
  simp only [readVariable] at h
  split at h
  · cases h
  · next hne =>
    cases h
    refine ⟨by simpa using hne, fun c hc => ?_⟩
    rw [String.toList_ofList] at hc
    exact List.all_eq_true.mp List.all_takeWhile c hc

theorem isWordPart_of_isWordStart {c : Char} (h : isWordStart c) : isWordPart c := by
  simp only [isWordStart, isWordPart, Char.isAlphanum, Bool.or_eq_true] at h ⊢
  rcases h with (h | h) | h <;> simp [h]

theorem isProper_readWord {c : Char} {cs : List Char} {token : Token} {n : Nat}
    (hstart : startsWord c cs) (hdigit : c.isDigit = false)
    (h : readWord c cs = (.ok token, n)) : token.IsProper := by
  cases h
  let word := c :: cs.takeWhile isWordPart
  change (Token.ofWord (String.ofList word)).IsProper
  by_cases hword : Token.ofWord (String.ofList word) = .identifier (String.ofList word)
  · have hstart' : startsWord c (cs.takeWhile isWordPart) := by
      simp only [startsWord, Bool.or_eq_true, Bool.and_eq_true, Option.any_eq_true] at hstart ⊢
      rcases hstart with hstart | ⟨hbackslash, d, hhead, hd⟩
      · exact .inl hstart
      · refine .inr ⟨hbackslash, d, ?_, hd⟩
        rw [List.head?_takeWhile, hhead, Option.filter_some, if_pos (isWordPart_of_isWordStart hd)]
    rw [hword]
    refine ⟨?_, hword⟩
    rw [String.toList_ofList, isWord, hstart', hdigit, List.all_takeWhile]
    rfl
  · apply Token.isProper_of_spells
    intro text
    simp only [Token.ofWord] at hword ⊢
    split
    · trivial
    · trivial
    · trivial
    · split
      · trivial
      · simp_all

theorem isProper_readToken {c : Char} {cs : List Char} {token : Token} {n : Nat}
    (h : readToken c cs = (.ok token, n)) : token.IsProper := by
  unfold readToken at h
  split at h
  · exact Token.isProper_of_spells fun _ => spells_readParenthesis h
  · split at h
    · exact isProper_readVariable h
    · split at h
      · exact Token.isProper_of_spells fun _ => spells_readString h
      · split at h
        · exact Token.isProper_of_spells fun _ => spells_readString h
        · split at h
          · exact Token.isProper_of_spells fun _ => spells_readNumber h
          · next hnumber =>
            split at h
            · next hstart =>
              have hdigit : c.isDigit = false := by
                simp only [startsNumber, Bool.or_eq_true, not_or] at hnumber
                simpa using hnumber.1
              exact isProper_readWord hstart hdigit h
            · exact Token.isProper_of_spells fun _ => spells_readSymbol h

theorem isProper_readBlockComment {cs : List Char} {token : Token} {n : Nat}
    (h : readBlockComment cs = (some (.ok token), n)) : token.IsProper := by
  unfold readBlockComment at h
  split at h
  · cases h
  · next m hend =>
    split at h
    · next hdoc =>
      cases h
      obtain ⟨body, rest, rfl, rfl, hinfix⟩ := exists_body_of_commentEnd? hend
      cases body with
      | nil => simp at hdoc
      | cons c body =>
          have hc : c = '*' := by
            simp only [Bool.and_eq_true] at hdoc
            simpa using hdoc.1
          subst hc
          exact ⟨body, by simp [List.take_length_add_append], hinfix⟩
    · cases h

theorem isProper_readCode {c : Char} {cs : List Char} {token : Token} {n : Nat}
    (h : readCode c cs = (some (.ok token), n)) : token.IsProper := by
  unfold readCode at h
  split at h
  · generalize readLineComment cs = read at h
    obtain ⟨closed, m⟩ := read
    cases closed <;> cases h
    trivial
  · next rest =>
    generalize readLineComment rest = read at h
    obtain ⟨closed, m⟩ := read
    cases closed <;> cases h
    trivial
  · next rest =>
    cases hread : readBlockComment rest with
    | mk content m =>
        rw [hread] at h
        cases h
        exact isProper_readBlockComment hread
  · cases h
    trivial
  · split at h
    · cases h
    · cases hread : readToken c cs with
      | mk content m =>
          rw [hread] at h
          cases h
          exact isProper_readToken hread

theorem isProper_of_mem_segments {inCode : Bool} {cs : List Char} {segment : Segment}
    {token : Token}
    (hmem : segment ∈ segments inCode cs) (h : segment.content = some (.ok token)) :
    token.IsProper := by
  fun_induction segments inCode cs with
  | case1 => cases hmem
  | case2 c cs content n hread ih =>
      rcases List.mem_cons.mp hmem with rfl | hmem
      · exact isProper_readCode (hread.trans (congrArg (·, n) h))
      · exact ih hmem
  | case3 inCode c cs hcode htag ih =>
      rcases List.mem_cons.mp hmem with rfl | hmem
      · cases h
        trivial
      · exact ih hmem
  | case4 inCode c cs hcode htag n text ih =>
      rcases List.mem_cons.mp hmem with rfl | hmem
      · cases h
        trivial
      · exact ih hmem

theorem isProper_of_mem_lex {source file : String} {lexeme : Lexeme} {token : Token}
    (hmem : lexeme ∈ lex source file) (h : lexeme.token? = some token) : token.IsProper := by
  have hcontent : lexeme.content = .ok token := by
    cases hcontent : lexeme.content <;> simp_all [Lexeme.token?, Except.toOption]
  have hmap : lexeme.content ∈ (segments false source.toList).filterMap Segment.content := by
    rw [← content_locate file 0 1]
    exact List.mem_map_of_mem hmem
  obtain ⟨segment, hsegment, hsome⟩ := List.mem_filterMap.mp hmap
  exact isProper_of_mem_segments hsegment (hsome.trans (congrArg some hcontent))

theorem exists_reads_word {word : String} {token : Token} (hword : isWord word.toList)
    (htoken : Token.ofWord word = token) (gap : Gap) (rest : List Char) :
    ∃ c cs, word.toList = c :: cs ∧
      readCode c (cs ++ (gap.text ++ rest)) = (some (.ok token), cs.length) := by
  obtain ⟨b, blanks, htext, hb⟩ := exists_gap_cons gap
  cases hchars : word.toList with
  | nil => simp [hchars, isWord] at hword
  | cons c cs =>
      rw [hchars] at hword
      refine ⟨c, cs, rfl, ?_⟩
      rw [htext, List.cons_append, reads_word hword hb, ← hchars, String.ofList_toList, htoken]

-- In front of a gap every token is read from its spelling.
theorem exists_reads {token : Token} {spelling : List Char}
    (hspelling : token.spelling? = some spelling)
    (hproper : token.IsProper) (gap : Gap) (rest : List Char) :
    ∃ c cs, spelling = c :: cs ∧
      readCode c (cs ++ (gap.text ++ rest)) = (some (.ok token), cs.length) := by
  obtain ⟨b, blanks, htext, hb⟩ := exists_gap_cons gap
  cases token with
  | symbol s =>
      cases hspelling
      by_cases hs : s = .parenLeft
      · subst hs
        exact ⟨'(', [], rfl, reads_parenthesis gap rest⟩
      · rw [htext]
        exact reads_symbol hs hb
  | cast type =>
      cases hspelling
      refine ⟨'(', type.spelling.toList ++ [')'], rfl, ?_⟩
      simpa using reads_cast type (gap.text ++ rest)
  | keyword k =>
      cases hspelling
      have hword : isWord k.spelling.toList := by cases k <;> decide
      have htoken : Token.ofWord k.spelling = .keyword k := by cases k <;> decide +kernel
      exact exists_reads_word hword htoken gap rest
  | bool value =>
      cases value <;> cases hspelling <;>
        exact exists_reads_word (by decide) (by decide +kernel) gap rest
  | null =>
      cases hspelling
      exact exists_reads_word (by decide) (by decide +kernel) gap rest
  | docComment text =>
      cases hspelling
      obtain ⟨body, htext, hinfix⟩ := hproper
      refine ⟨'/', '*' :: '*' :: body ++ ['*', '/'], htext, ?_⟩
      have hname : text = String.ofList ('/' :: '*' :: '*' :: body ++ ['*', '/']) := by
        rw [← htext, String.ofList_toList]
      rw [hname]
      simpa using reads_docComment hinfix (gap.text ++ rest)
  | var name =>
      cases hspelling
      obtain ⟨hne, hparts⟩ := hproper
      refine ⟨'$', name.toList, rfl, ?_⟩
      rw [htext]
      simpa using reads_variable hne hparts hb
  | identifier name =>
      cases hspelling
      exact exists_reads_word hproper.1 hproper.2 gap rest
  | int n =>
      rw [Token.spelling?] at hspelling
      split at hspelling
      · next hn =>
        cases hspelling
        have hmax : Int64.maxValue.toInt = 9223372036854775807 := by decide
        have hbound := n.toNatClampNeg_lt
        have hread := reads_int (n := n.toNatClampNeg) (by omega) hb (blanks ++ rest)
        rwa [Int64.ofNat_toNatClampNeg n hn, ← List.cons_append, ← htext] at hread
      · cases hspelling
  | string text interpolated =>
      cases interpolated <;> cases hspelling
      refine ⟨'\'', text.toList.flatMap escape ++ ['\''], rfl, ?_⟩
      simpa using reads_string text.toList (gap.text ++ rest)
  | openTag | closeTag | inlineHtml | float => cases hspelling

theorem segments_openTag (rest : List Char) :
    segments false (openTag ++ rest) = ⟨openTag, some (.ok .openTag)⟩ :: segments true rest := by
  rw [openTag, List.cons_append, segments]
  simp [openTag]

theorem contents_spelling {token : Token} {spelling : List Char}
    (hspelling : token.spelling? = some spelling) (hproper : token.IsProper) (gap : Gap)
    (rest : List Char) :
    (segments true (spelling ++ (gap.text ++ rest))).filterMap Segment.content =
      .ok token :: (segments true rest).filterMap Segment.content := by
  obtain ⟨c, cs, rfl, hread⟩ := exists_reads hspelling hproper gap rest
  have hcode : endsCode (some (.ok token)) = false := by
    cases token with
    | closeTag => cases hspelling
    | _ => rfl
  rw [List.cons_append, segments_code hread hcode, List.drop_left, List.filterMap_cons]
  exact congrArg (Except.ok token :: ·) (contents_blanks gap.isBlank rest)

end Source

-- Names and doc comments have to be such as some source has.
def Token.IsWritable (token : Token) : Prop :=
  match token with
  | docComment _ | var _ | identifier _ =>
    ∃ source file, ∃ lexeme ∈ lex source file, lexeme.token? = some token
  | _ => token.spelling?.isSome

-- The tokens one after the other, each with a gap behind it.
def written (gap : Gap) (words : List (Token × Gap)) : String :=
  String.ofList (openTag ++ gap.text ++
    words.flatMap fun (token, gap) => token.spelling?.getD [] ++ gap.text)

theorem Token.IsWritable.isProper {token : Token} (h : token.IsWritable) : token.IsProper := by
  cases token with
  | docComment | var | identifier =>
      obtain ⟨source, file, lexeme, hmem, htoken⟩ := h
      exact isProper_of_mem_lex hmem htoken
  | _ => trivial

theorem Token.IsWritable.exists_spelling {token : Token} (h : token.IsWritable) :
    ∃ spelling, token.spelling? = some spelling := by
  cases token with
  | docComment | var | identifier => exact ⟨_, rfl⟩
  | _ => exact Option.isSome_iff_exists.mp h

-- By induction on the tokens.
theorem contents_words {words : List (Token × Gap)} (h : ∀ word ∈ words, word.1.IsWritable) :
    (segments true (words.flatMap fun (token, gap) =>
      token.spelling?.getD [] ++ gap.text)).filterMap Segment.content =
      words.map fun word => .ok word.1 := by
  induction words with
  | nil => simp [segments]
  | cons word words ih =>
      obtain ⟨hword, hwords⟩ := List.forall_mem_cons.mp h
      obtain ⟨token, gap⟩ := word
      obtain ⟨spelling, hspelling⟩ := hword.exists_spelling
      rw [List.flatMap_cons, List.map_cons, ← ih hwords]
      simp only [hspelling, Option.getD_some, List.append_assoc]
      exact contents_spelling hspelling hword.isProper gap _

-- Tokens that are written in code are read back without loss and without errors.
theorem lex_written (file : String) (gap : Gap) {words : List (Token × Gap)}
    (h : ∀ word ∈ words, word.1.IsWritable) :
    (lex (written gap words) file).map Lexeme.content =
      .ok .openTag :: words.map fun word => .ok word.1 := by
  rw [lex, content_locate, written, String.toList_ofList, List.append_assoc, segments_openTag,
    List.filterMap_cons]
  exact congrArg (Except.ok Token.openTag :: ·)
    ((contents_blanks gap.isBlank _).trans (contents_words h))

-- The name of a type in parentheses is no cast where lines end between them.
theorem lex_written_parentheses :
    let gap : Gap := ⟨[' ', '\n', '\t'], List.all_eq_true.mp (by decide), by decide⟩
    let tokens : List Token := [.docComment "/** @test */", .symbol .parenLeft, .identifier "int",
      .symbol .parenRight, .cast .int, .var "x", .symbol .dot, .int 7, .string "it's \\" false]
    (lex (written gap (tokens.map (·, gap))) "a.php").map Lexeme.content =
      .ok .openTag :: (tokens.map (·, gap)).map fun word => .ok word.1 := by
  intro gap tokens
  apply lex_written
  intro word hword
  obtain ⟨token, htoken, rfl⟩ := List.mem_map.mp hword
  simp only [tokens, List.mem_cons, List.not_mem_nil, or_false] at htoken
  rcases htoken with rfl | rfl | rfl | rfl | rfl | rfl | rfl | rfl | rfl
  · exact ⟨"<?php /** @test */", "", by decide +kernel⟩
  · rfl
  · exact ⟨"<?php int", "", by decide +kernel⟩
  · rfl
  · rfl
  · exact ⟨"<?php $x", "", by decide +kernel⟩
  · rfl
  · rfl
  · rfl

end PhpLint
