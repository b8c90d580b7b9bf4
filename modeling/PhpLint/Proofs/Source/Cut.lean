import PhpLint.Source.Segment

namespace PhpLint

-- The texts that tokens carry are spelled out in the source.
def Token.Spells (text : List Char) : Token → Prop
  | inlineHtml t | docComment t | identifier t => text = t.toList
  | var name => text = '$' :: name.toList
  | _ => True

namespace Source

-- What can be left out of the source in front of the given rest: a blank, a comment up to
-- the end of its line, or a block that is closed and is no doc comment.
inductive Skippable : List Char → List Char → Prop where
  | blank {c rest} : c ∈ [' ', '\t', '\r', '\n'] → Skippable [c] rest
  | line {opening body rest} : opening ∈ [['#'], ['/', '/']] → '\n' ∉ body →
    ¬ ['?', '>'] <:+: body → (rest = [] ∨ rest.head? = some '\n') →
    Skippable (opening ++ body) rest
  | block {body rest} : body.head? ≠ some '*' → ¬ ['*', '/'] <:+: body ++ ['*'] →
    Skippable ('/' :: '*' :: body ++ ['*', '/']) rest

theorem byteLength_eq_utf8ByteSize (cs : List Char) :
    byteLength cs = (String.ofList cs).utf8ByteSize := by
  induction cs with
  | nil => rfl
  | cons c cs ih =>
      rw [String.ofList_cons, String.utf8ByteSize_append, String.utf8ByteSize_singleton, ← ih]
      rfl

theorem byteLength_append (cs ds : List Char) :
    byteLength (cs ++ ds) = byteLength cs + byteLength ds := by
  simp only [byteLength_eq_utf8ByteSize, String.ofList_append, String.utf8ByteSize_append]

-- By induction on the text: the comment stops in front of the end of its line.
theorem newline_notMem_lineComment {cs : List Char} {n : Nat}
    (h : readLineComment cs = (false, n)) :
    '\n' ∉ cs.take n ∧ ¬ ['?', '>'] <:+: cs.take n ∧
      (cs.drop n = [] ∨ (cs.drop n).head? = some '\n') := by
  fun_induction readLineComment cs generalizing n with
  | case1 => simp_all
  | case2 =>
      obtain ⟨-, rfl⟩ := Prod.mk.inj h
      simp
  | case3 => simp at h
  | case4 c cs hline hclose closed m hrest ih =>
      obtain ⟨hclosed, hn⟩ := Prod.mk.inj h
      subst hn
      obtain ⟨hnewline, hinfix, hend⟩ := ih (by rw [hrest, hclosed])
      refine ⟨?_, ?_, by simpa using hend⟩
      · simp only [List.take_succ_cons, List.mem_cons, not_or]
        exact ⟨fun hc => hline hc.symm, hnewline⟩
      · rw [List.take_succ_cons, List.infix_cons_iff, not_or]
        refine ⟨fun hprefix => ?_, hinfix⟩
        obtain ⟨hc, htail⟩ := List.cons_prefix_cons.mp hprefix
        obtain ⟨rest, hrest⟩ := htail.trans (List.take_prefix m cs)
        exact hclose rest hc.symm hrest.symm

-- The comment ends with the first asterisk that has a slash after it.
theorem exists_body_of_commentEnd? {cs : List Char} {n : Nat} (h : commentEnd? cs = some n) :
    ∃ body rest, cs = body ++ '*' :: '/' :: rest ∧ n = body.length + 2 ∧
      ¬ ['*', '/'] <:+: body ++ ['*'] := by
  fun_induction commentEnd? cs generalizing n with
  | case1 => simp at h
  | case2 rest => exact ⟨[], rest, rfl, by simpa using h.symm, by decide⟩
  | case3 c cs hend ih =>
      obtain ⟨m, hm, rfl⟩ := Option.map_eq_some_iff.mp h
      obtain ⟨body, rest, rfl, rfl, hinfix⟩ := ih hm
      refine ⟨c :: body, rest, rfl, by simp, ?_⟩
      rw [List.cons_append, List.infix_cons_iff, not_or]
      refine ⟨fun hprefix => ?_, hinfix⟩
      obtain ⟨hc, htail⟩ := List.cons_prefix_cons.mp hprefix
      cases body with
      | nil => simp at htail
      | cons d body =>
          obtain ⟨hd, -⟩ := List.cons_prefix_cons.mp htail
          exact hend _ hc.symm (by rw [← hd]; rfl)

-- A piece of the source in front of the given rest.
structure Segment.IsCut (segment : Segment) (rest : List Char) : Prop where
  text_ne_nil : segment.text ≠ []
  spells {token} : segment.content = some (.ok token) → token.Spells segment.text
  skippable : segment.content = none → Skippable segment.text rest

theorem spells_integerToken {base : Nat} {digits text : List Char} {token : Token}
    (h : integerToken base digits = .ok token) : token.Spells text := by
  simp only [integerToken] at h
  split at h
  · cases h
  · split at h
    · cases h
      trivial
    · generalize Number.wideInteger? base _ = wide at h
      cases wide <;> cases h
      trivial

theorem spells_decimal {isFloat isOctal : Bool} {x : Float} {octal decimal text : List Char}
    {token : Token}
    (h : (if isFloat then .ok (.float x) else if isOctal then integerToken 8 octal
      else integerToken 10 decimal) = .ok token) : token.Spells text := by
  split at h
  · cases h
    trivial
  · split at h <;> exact spells_integerToken h

theorem spells_readNumber {c : Char} {cs text : List Char} {token : Token} {n : Nat}
    (h : readNumber c cs = (.ok token, n)) : token.Spells text := by
  unfold readNumber at h
  split at h
  · exact spells_integerToken (congrArg Prod.fst h)
  · exact spells_decimal (congrArg Prod.fst h)

theorem spells_readSymbol {cs text : List Char} {token : Token} {n : Nat}
    (h : readSymbol cs = (.ok token, n)) : token.Spells text := by
  unfold readSymbol at h
  split at h <;> cases h
  trivial

theorem spells_readParenthesis {cs text : List Char} {token : Token} {n : Nat}
    (h : readParenthesis cs = (.ok token, n)) : token.Spells text := by
  unfold readParenthesis at h
  split at h <;> cases h <;> trivial

theorem spells_readString {literal : Read Quoted} {text : List Char} {token : Token} {n : Nat}
    (h : readString literal = (.ok token, n)) : token.Spells text := by
  obtain ⟨quoted | quoted, m⟩ := literal <;> cases h
  trivial

theorem take_length_takeWhile {α : Type} (p : α → Bool) (l : List α) :
    l.take (l.takeWhile p).length = l.takeWhile p :=
  (List.prefix_iff_eq_take.mp (List.takeWhile_prefix p)).symm

theorem spells_readVariable {cs : List Char} {token : Token} {n : Nat}
    (h : readVariable cs = (.ok token, n)) : token.Spells ('$' :: cs.take n) := by
  simp only [readVariable] at h
  split at h
  · simp at h
  · cases h
    simp [Token.Spells, take_length_takeWhile]

theorem spells_ofWord (word : List Char) : (Token.ofWord (String.ofList word)).Spells word := by
  simp only [Token.ofWord]
  split
  · trivial
  · trivial
  · trivial
  · split
    · trivial
    · simp [Token.Spells]

theorem spells_readWord {c : Char} {cs : List Char} {token : Token} {n : Nat}
    (h : readWord c cs = (.ok token, n)) : token.Spells (c :: cs.take n) := by
  cases h
  rw [take_length_takeWhile]
  exact spells_ofWord (c :: cs.takeWhile isWordPart)

theorem spells_readToken {c : Char} {cs : List Char} {token : Token} {n : Nat}
    (h : readToken c cs = (.ok token, n)) : token.Spells (c :: cs.take n) := by
  unfold readToken at h
  split at h
  · exact spells_readParenthesis h
  · split at h
    · next hdollar =>
      rw [beq_iff_eq.mp hdollar]
      exact spells_readVariable h
    · split at h
      · exact spells_readString h
      · split at h
        · exact spells_readString h
        · split at h
          · exact spells_readNumber h
          · split at h
            · exact spells_readWord h
            · exact spells_readSymbol h

-- A line comment that opens with the given characters.
theorem isCut_lineComment (opening : List Char) (hopening : opening ∈ [['#'], ['/', '/']])
    {cs : List Char} {closed : Bool} {n : Nat} (h : readLineComment cs = (closed, n)) :
    Segment.IsCut ⟨opening ++ cs.take n, if closed then some (.ok .closeTag) else none⟩
      (cs.drop n) where
  text_ne_nil := by
    simp only [List.mem_cons, List.not_mem_nil, or_false] at hopening
    rcases hopening with rfl | rfl <;> simp
  spells {token} htoken := by
    cases closed <;> cases htoken
    trivial
  skippable hnone := by
    cases closed with
    | true => simp at hnone
    | false =>
        obtain ⟨hnewline, hclose, hrest⟩ := newline_notMem_lineComment h
        exact .line hopening hnewline hclose hrest

theorem isCut_blockComment {cs : List Char} {content : Option (Except LexError Token)} {n : Nat}
    (h : readBlockComment cs = (content, n)) :
    Segment.IsCut ⟨'/' :: '*' :: cs.take n, content⟩ (cs.drop n) := by
  unfold readBlockComment at h
  split at h
  · cases h
    exact ⟨by simp, by simp, by simp⟩
  · next m hend =>
    split at h
    · cases h
      exact ⟨by simp, by rintro _ ⟨⟩; simp [Token.Spells], by simp⟩
    · next hdoc =>
      cases h
      refine ⟨by simp, by simp, fun _ => ?_⟩
      obtain ⟨body, rest, rfl, rfl, hinfix⟩ := exists_body_of_commentEnd? hend
      rw [List.take_length_add_append]
      refine .block (fun hstar => hdoc ?_) hinfix
      obtain ⟨body, rfl⟩ := List.head?_eq_some_iff.mp hstar
      cases body with
      | nil => rfl
      | cons d body =>
          have hd : d ≠ '/' := fun hd => hinfix ⟨[], body ++ ['*'], by simp [hd]⟩
          simp [hd]

theorem isCut_readCode {c : Char} {cs : List Char} {content : Option (Except LexError Token)}
    {n : Nat} (h : readCode c cs = (content, n)) :
    Segment.IsCut ⟨c :: cs.take n, content⟩ (cs.drop n) := by
  unfold readCode at h
  split at h
  · cases hline : readLineComment cs with
    | mk closed m =>
        have hcut := isCut_lineComment ['#'] (by simp) hline
        rw [hline] at h
        cases closed <;> cases h <;> exact hcut
  · next rest =>
    cases hline : readLineComment rest with
    | mk closed m =>
        have hcut := isCut_lineComment ['/', '/'] (by simp) hline
        rw [hline] at h
        cases closed <;> cases h <;> exact hcut
  · next rest =>
    cases hblock : readBlockComment rest with
    | mk inner m =>
        rw [hblock] at h
        cases h
        exact isCut_blockComment hblock
  · cases h
    exact ⟨by simp, by rintro _ ⟨⟩; trivial, by simp⟩
  · split at h
    · next hblank =>
      cases h
      refine ⟨by simp, by simp, fun _ => .blank ?_⟩
      simpa [isBlankInCode, or_assoc] using hblank
    · cases htoken : readToken c cs with
      | mk result m =>
          rw [htoken] at h
          cases h
          refine ⟨by simp, fun {token} heq => ?_, by simp⟩
          cases heq
          exact spells_readToken htoken

def textOf (segments : List Segment) : List Char :=
  segments.flatMap Segment.text

theorem textOf_cons (segment : Segment) (segments : List Segment) :
    textOf (segment :: segments) = segment.text ++ textOf segments := rfl

theorem textOf_append (first second : List Segment) :
    textOf (first ++ second) = textOf first ++ textOf second :=
  List.flatMap_append

theorem openTag_append_drop {c : Char} {cs : List Char} (h : openTag.isPrefixOf (c :: cs)) :
    openTag ++ cs.drop 4 = c :: cs := by
  obtain ⟨rest, hrest⟩ := List.isPrefixOf_iff_prefix.mp h
  cases hrest
  rfl

-- Nothing of the source is lost between the segments.
theorem textOf_segments (inCode : Bool) (cs : List Char) : textOf (segments inCode cs) = cs := by
  fun_induction segments inCode cs with
  | case1 => rfl
  | case2 c cs content n hread ih =>
      rw [textOf_cons, ih, List.cons_append, List.take_append_drop]
  | case3 inCode c cs hcode htag ih =>
      rw [textOf_cons, ih]
      exact openTag_append_drop htag
  | case4 inCode c cs hcode htag n text ih =>
      rw [textOf_cons, ih, List.cons_append, List.take_append_drop]

theorem isCut_segments (inCode : Bool) (cs : List Char) :
    ∀ pre segment post, segments inCode cs = pre ++ segment :: post →
      segment.IsCut (textOf post) := by
  fun_induction segments inCode cs with
  | case1 => simp
  | case2 c cs content n hread ih =>
      rintro (_ | ⟨first, pre⟩) segment post h
      · obtain ⟨rfl, rfl⟩ := List.cons.inj h
        rw [textOf_segments]
        exact isCut_readCode hread
      · exact ih _ _ _ (List.cons.inj h).2
  | case3 inCode c cs hcode htag ih =>
      rintro (_ | ⟨first, pre⟩) segment post h
      · obtain ⟨rfl, rfl⟩ := List.cons.inj h
        exact ⟨by simp [openTag], by rintro _ ⟨⟩; trivial, by simp⟩
      · exact ih _ _ _ (List.cons.inj h).2
  | case4 inCode c cs hcode htag n text ih =>
      rintro (_ | ⟨first, pre⟩) segment post h
      · obtain ⟨rfl, rfl⟩ := List.cons.inj h
        exact ⟨by simp [text], by rintro _ ⟨⟩; simp [Token.Spells], by simp⟩
      · exact ih _ _ _ (List.cons.inj h).2

section Places

variable (file : String)

theorem locate_append (offset line : Nat) (first second : List Segment) :
    ∃ next, locate file offset line (first ++ second) = locate file offset line first ++
      locate file (offset + byteLength (textOf first)) next second := by
  induction first generalizing offset line with
  | nil => exact ⟨line, rfl⟩
  | cons segment first ih =>
      obtain ⟨next, hnext⟩ := ih (offset + byteLength segment.text)
        (line + segment.text.count '\n')
      refine ⟨next, ?_⟩
      rw [textOf_cons, byteLength_append, ← Nat.add_assoc]
      simp only [List.cons_append, locate, hnext]
      cases segment.content <;> rfl

-- Where a segment is that comes after the given texts.
def placeAfter (offset line : Nat) (pre : List Segment) (segment : Segment) : Location where
  file
  start := offset + byteLength (textOf pre)
  stop := offset + byteLength (textOf pre) + byteLength segment.text
  firstLine := line + (textOf pre).count '\n'
  lastLine := line + (textOf pre).count '\n' + segment.text.dropLast.count '\n'

theorem placeAfter_cons (offset line : Nat) (first : Segment) (pre : List Segment)
    (segment : Segment) :
    placeAfter file offset line (first :: pre) segment =
      placeAfter file (offset + byteLength first.text) (line + first.text.count '\n') pre
        segment := by
  simp [placeAfter, textOf_cons, byteLength_append, Nat.add_assoc]

-- A lexeme is one of the segments at the place where the texts in front of it end.
def IsPlacedIn (lexeme : Lexeme) (offset line : Nat) (segments : List Segment) : Prop :=
  ∃ pre segment post, segments = pre ++ segment :: post ∧
    segment.content = some lexeme.content ∧
    lexeme.location = placeAfter file offset line pre segment

theorem IsPlacedIn.cons {lexeme : Lexeme} {offset line : Nat} {first : Segment}
    {segments : List Segment}
    (h : IsPlacedIn file lexeme (offset + byteLength first.text) (line + first.text.count '\n')
      segments) :
    IsPlacedIn file lexeme offset line (first :: segments) := by
  obtain ⟨pre, segment, post, rfl, hcontent, hlocation⟩ := h
  exact ⟨first :: pre, segment, post, rfl, hcontent, by rw [hlocation, placeAfter_cons]⟩

theorem isPlacedIn_of_mem_locate {offset line : Nat} {segments : List Segment} {lexeme : Lexeme}
    (h : lexeme ∈ locate file offset line segments) :
    IsPlacedIn file lexeme offset line segments := by
  induction segments generalizing offset line with
  | nil => simp [locate] at h
  | cons segment segments ih =>
      cases hcontent : segment.content with
      | none =>
          simp only [locate, hcontent] at h
          exact (ih h).cons
      | some content =>
          simp only [locate, hcontent, List.mem_cons] at h
          rcases h with rfl | h
          · exact ⟨[], segment, segments, rfl, hcontent, by simp [placeAfter, textOf, byteLength]⟩
          · exact (ih h).cons

-- The places are between the start and the end of the text.
theorem bounds_of_mem_locate {offset line : Nat} {segments : List Segment} {lexeme : Lexeme}
    (h : lexeme ∈ locate file offset line segments) :
    offset ≤ lexeme.location.start ∧
      lexeme.location.stop ≤ offset + byteLength (textOf segments) := by
  obtain ⟨pre, segment, post, rfl, -, hlocation⟩ := isPlacedIn_of_mem_locate file h
  simp only [hlocation, placeAfter, textOf_append, textOf_cons, byteLength_append]
  omega

theorem pairwise_locate (offset line : Nat) (segments : List Segment) :
    (locate file offset line segments).Pairwise fun a b => a.location.stop ≤ b.location.start := by
  induction segments generalizing offset line with
  | nil => exact .nil
  | cons segment segments ih =>
      cases hcontent : segment.content with
      | none =>
          simp only [locate, hcontent]
          exact ih _ _
      | some content =>
          simp only [locate, hcontent]
          refine .cons (fun lexeme hmem => ?_) (ih _ _)
          exact (bounds_of_mem_locate file hmem).1

-- By induction on the segments: a byte of the text is in one of them.
theorem exists_segment_at {segments : List Segment} {i : Nat}
    (h : i < byteLength (textOf segments)) :
    ∃ pre segment post, segments = pre ++ segment :: post ∧ byteLength (textOf pre) ≤ i ∧
      i < byteLength (textOf pre) + byteLength segment.text := by
  induction segments generalizing i with
  | nil => simp [textOf, byteLength] at h
  | cons segment segments ih =>
      by_cases hfirst : i < byteLength segment.text
      · refine ⟨[], segment, segments, rfl, Nat.zero_le _, ?_⟩
        simpa [textOf, byteLength] using hfirst
      · rw [textOf_cons, byteLength_append] at h
        have hrest : i - byteLength segment.text < byteLength (textOf segments) := by omega
        obtain ⟨pre, other, post, rfl, hle, hlt⟩ := ih hrest
        refine ⟨segment :: pre, other, post, rfl, ?_⟩
        rw [textOf_cons, byteLength_append]
        omega

end Places

end Source

open Source

-- The text stands in the source at the given bytes, between other texts.
structure Occupies (source : String) (start stop : Nat) (before text after : String) : Prop where
  source_eq : source = before ++ text ++ after
  start_eq : start = before.utf8ByteSize
  stop_eq : stop = (before ++ text).utf8ByteSize

theorem occupies_of_segments {source : String} {pre post : List Segment} {segment : Segment}
    (h : segments false source.toList = pre ++ segment :: post) :
    Occupies source (byteLength (textOf pre)) (byteLength (textOf pre) + byteLength segment.text)
      (String.ofList (textOf pre)) (String.ofList segment.text) (String.ofList (textOf post)) where
  source_eq := by
    have htext := textOf_segments false source.toList
    rw [h] at htext
    apply String.toList_injective
    rw [← htext]
    simp [textOf_append, textOf_cons]
  start_eq := byteLength_eq_utf8ByteSize _
  stop_eq := by
    rw [String.utf8ByteSize_append, byteLength_eq_utf8ByteSize, byteLength_eq_utf8ByteSize]

-- A lexeme stands in the source where it says.
theorem exists_occupies_of_mem_lex {source file : String} {lexeme : Lexeme}
    (h : lexeme ∈ lex source file) :
    ∃ before text after,
      Occupies source lexeme.location.start lexeme.location.stop before text after ∧ text ≠ "" ∧
      ∀ token, lexeme.content = .ok token → token.Spells text.toList := by
  obtain ⟨pre, segment, post, hsegments, hcontent, hlocation⟩ := isPlacedIn_of_mem_locate file h
  have hcut := isCut_segments _ _ _ _ _ hsegments
  simp only [hlocation, placeAfter, Nat.zero_add]
  refine ⟨_, _, _, occupies_of_segments hsegments, fun hempty => hcut.text_ne_nil ?_, ?_⟩
  · simpa using congrArg String.toList hempty
  · intro token htoken
    rw [String.toList_ofList]
    exact hcut.spells (by rw [hcontent, htoken])

theorem start_lt_stop_of_mem_lex {source file : String} {lexeme : Lexeme}
    (h : lexeme ∈ lex source file) : lexeme.location.start < lexeme.location.stop := by
  obtain ⟨before, text, after, hoccupies, htext, -⟩ := exists_occupies_of_mem_lex h
  have hpos : text.utf8ByteSize ≠ 0 := mt String.utf8ByteSize_eq_zero_iff.mp htext
  rw [hoccupies.start_eq, hoccupies.stop_eq, String.utf8ByteSize_append]
  omega

-- The places of lexemes follow one another in the order of the source.
theorem pairwise_lex (source file : String) :
    (lex source file).Pairwise fun a b =>
      a.location.start < b.location.start ∧ a.location.stop ≤ b.location.start := by
  refine (pairwise_locate file 0 1 _).imp_of_mem fun ha _ hab => ⟨?_, hab⟩
  exact Nat.lt_of_lt_of_le (start_lt_stop_of_mem_lex ha) hab

-- A text that is left out lies between the places of lexemes.
theorem apart_of_content_eq_none {source file : String} {pre post : List Segment}
    {segment : Segment} (h : segments false source.toList = pre ++ segment :: post)
    (hnone : segment.content = none) {lexeme : Lexeme} (hmem : lexeme ∈ lex source file) :
    lexeme.location.stop ≤ byteLength (textOf pre) ∨
      byteLength (textOf pre) + byteLength segment.text ≤ lexeme.location.start := by
  obtain ⟨next, hlocate⟩ := locate_append file 0 1 pre (segment :: post)
  rw [lex, h, hlocate, List.mem_append] at hmem
  rcases hmem with hmem | hmem
  · have hbounds := (bounds_of_mem_locate file hmem).2
    exact .inl (by omega)
  · simp only [locate, hnone] at hmem
    have hbounds := (bounds_of_mem_locate file hmem).1
    exact .inr (by omega)

-- A byte is in a lexeme or in a text that is left out.
theorem exists_cover {source file : String} {i : Nat} (h : i < source.utf8ByteSize) :
    (∃ lexeme ∈ lex source file, lexeme.location.start ≤ i ∧ i < lexeme.location.stop) ∨
      ∃ start stop before text after, Occupies source start stop before text after ∧
        Skippable text.toList after.toList ∧ start ≤ i ∧ i < stop ∧
        ∀ lexeme ∈ lex source file,
          lexeme.location.stop ≤ start ∨ stop ≤ lexeme.location.start := by
  have hlength : i < byteLength (textOf (segments false source.toList)) := by
    rwa [textOf_segments, byteLength_eq_utf8ByteSize, String.ofList_toList]
  obtain ⟨pre, segment, post, hsegments, hle, hlt⟩ := exists_segment_at hlength
  cases hcontent : segment.content with
  | none =>
      refine .inr ⟨_, _, _, _, _, occupies_of_segments hsegments, ?_, hle, hlt, fun lexeme hmem =>
        apart_of_content_eq_none hsegments hcontent hmem⟩
      rw [String.toList_ofList, String.toList_ofList]
      exact (isCut_segments _ _ _ _ _ hsegments).skippable hcontent
  | some content =>
      obtain ⟨next, hlocate⟩ := locate_append file 0 1 pre (segment :: post)
      simp only [locate, hcontent, Nat.zero_add] at hlocate
      rw [lex, hsegments, hlocate]
      exact .inl ⟨_, List.mem_append_right _ List.mem_cons_self, hle, hlt⟩

-- The lexemes are cut out of the source in order and without loss: each is a text of it,
-- no two of them overlap, and between them there are only blanks and comments.
theorem lex_cuts_source (source file : String) :
    (∀ lexeme ∈ lex source file, ∃ before text after,
      Occupies source lexeme.location.start lexeme.location.stop before text after ∧ text ≠ "" ∧
      ∀ token, lexeme.content = .ok token → token.Spells text.toList) ∧
    ((lex source file).Pairwise fun a b =>
      a.location.start < b.location.start ∧ a.location.stop ≤ b.location.start) ∧
    ∀ i : Fin source.utf8ByteSize,
      (∃ lexeme ∈ lex source file, lexeme.location.start ≤ i ∧ i < lexeme.location.stop) ∨
      ∃ start stop before text after, Occupies source start stop before text after ∧
        Skippable text.toList after.toList ∧ start ≤ i ∧ i < stop ∧
        ∀ lexeme ∈ lex source file,
          lexeme.location.stop ≤ start ∨ stop ≤ lexeme.location.start :=
  ⟨fun _ => exists_occupies_of_mem_lex, pairwise_lex source file, fun i => exists_cover i.isLt⟩

end PhpLint
