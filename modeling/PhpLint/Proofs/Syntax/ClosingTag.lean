import PhpLint.Proofs.Syntax.StatementEnds

namespace PhpLint

namespace Syntax

open EStateM (bind_eq_ok_iff bind_of_error bind_of_ok)
open PhpLint.Syntax.Parser

-- A statement that does not end, and in which none ends, where this number of items is left.
def avoiding (left : Nat) : Nat → Parser (Option Stmt)
  | 0 => tooDeep
  | depth + 1 => do
    let made ← statement ⟨(nestedAt depth).expression, avoiding left depth⟩
    if (← get).items.length = left then tooDeep else return made

theorem avoiding_of_ok {left depth : Nat} {s t : Stream} {made : Option Stmt}
    (h : statement ⟨(nestedAt depth).expression, avoiding left depth⟩ s = .ok made t) :
    avoiding left (depth + 1) s =
      if t.items.length = left then .error (.tooDeep t.last) t else .ok made t := by
  rw [avoiding, bind_of_ok h]
  change (if t.items.length = left then tooDeep else pure made : Parser (Option Stmt)) t = _
  split <;> rfl

theorem evades_avoiding (left depth : Nat) : Evades left (avoiding left depth) := by
  cases depth with
  | zero => rintro s a t ⟨⟩
  | succ depth =>
      intro s made t h
      obtain ⟨read, u, hread, -⟩ := bind_eq_ok_iff.mp h
      rw [avoiding_of_ok hread] at h
      split at h
      · cases h
      · next hu =>
          cases h
          exact hu

theorem agrees_avoiding {left depth : Nat}
    (h : Agrees (statement ⟨(nestedAt depth).expression, avoiding left depth⟩)
      (statementAt (depth + 1))) :
    Agrees (avoiding left (depth + 1)) (statementAt (depth + 1)) := by
  constructor
  intro s
  rcases h.eq_or_tooDeep s with hsame | hdeep
  · cases hmade : statement ⟨(nestedAt depth).expression, avoiding left depth⟩ s with
    | ok made t =>
        rw [avoiding_of_ok hmade, ← hsame, hmade]
        split
        · exact .inr ⟨t.last, t, rfl⟩
        · exact .inl rfl
    | error error t =>
        left
        rw [avoiding, bind_of_error hmade, ← hsame, hmade]
  · exact .inr (bind_tooDeep hdeep)

-- By induction on the depth.
theorem lockstep_statementAt (seam : Seam) (depth : Nat) :
    Lockstep seam (seam.Joined (Option.map Stmt.placeless) seam.Beyond) (statementAt depth)
      (avoiding seam.rest.length depth) := by
  induction depth with
  | zero =>
      have htooDeep : Blind seam (tooDeep : Parser (Option Stmt)) := halts_tooDeep.blind
      exact htooDeep.lockstep
  | succ depth ih =>
      have hmoves : Parts.Moves (fun s t => s.errors <:+ t.errors)
          ⟨(nestedAt depth).expression, statementAt depth⟩ := ⟨inferInstance, inferInstance⟩
      have hparts : Parts.Lockstep seam ⟨(nestedAt depth).expression, statementAt depth⟩
          ⟨(nestedAt depth).expression, avoiding seam.rest.length depth⟩ := {
        expression := (halts_nestedAt depth).expression
        same := rfl
        statement := ih
        advances := fun _ _ _ => length_statementAt
        afresh := fun _ _ _ _ _ _ _ h => afresh_statementAt depth h
        readsTags := by
          cases depth with
          | zero => rintro s made t ⟨⟩
          | succ depth =>
              intro s made t _ item hitem rest last docs errors
              exact statement_of_passed (hitem.imp_right .inl) rest last docs errors
        refuses := fun _ hitems _ _ _ _ _ => statementAt_refuses hitems depth }
      have hstatement := lockstep_statement hparts
      have hevades := evades_avoiding seam.rest.length depth
      exact {
        moves := hstatement.moves
        agrees := agrees_avoiding hstatement.agrees
        late := fun s made t h hs => by
          have hless := length_statementAt h
          rw [avoiding_of_ok (hstatement.late h hs), if_neg (by omega)]
        before := hstatement.before
        past := fun front last docs made t h ht hne => by
          by_cases hother : statement
              ⟨(nestedAt depth).expression, avoiding seam.rest.length depth⟩
              ⟨front ++ seam.ended, last, docs, []⟩ = .ok made t
          · have hlength : t.items.length = seam.rest.length := by
              by_contra hlength
              exact hne ((avoiding_of_ok hother).trans (if_neg hlength))
            exact .inl (endsAt_statement hparts hevades h hother ht hlength)
          · exact hstatement.past h ht hother }

-- Whether no statement, at any depth, ends where this number of items is left.
def avoids (left : Nat) : Nat → Stream → Bool
  | 0, _ => true
  | rounds + 1, s =>
    s.items.isEmpty ||
      match avoiding left maxDepth s with
      | .ok _ t => avoids left rounds t
      | .error _ _ => false

theorem avoids_of_ok {left rounds : Nat} {s t : Stream} {made : Option Stmt}
    (h : avoiding left maxDepth s = .ok made t) (hitems : s.items ≠ []) :
    avoids left (rounds + 1) s = avoids left rounds t := by
  rw [avoids, h, List.isEmpty_eq_false_iff.mpr hitems, Bool.false_or]

-- Without errors every statement succeeds, and what is left has no errors either.
theorem exists_ok_of_program {rounds : Nat} {s : Stream} (hitems : s.items ≠ [])
    (h : (program (rounds + 1) s).2 = []) :
    ∃ made t, statementAt maxDepth s = .ok made t ∧ t.errors = [] ∧ (program rounds t).2 = [] := by
  cases hmade : statementAt maxDepth s with
  | ok made t =>
      rw [program_of_ok hitems hmade] at h
      have herrors := errors_prefix_program rounds t
      rw [h, List.prefix_nil, List.reverse_eq_nil_iff] at herrors
      exact ⟨made, t, rfl, herrors, h⟩
  | error error t =>
      rw [program_of_error hitems hmade] at h
      have herrors := errors_prefix_program rounds (resume s t error)
      rw [h, List.prefix_nil, List.reverse_eq_nil_iff, errors_resume] at herrors
      cases herrors

theorem avoids_of_le (seam : Seam) {rounds : Nat} {s : Stream}
    (hs : s.items.length ≤ seam.rest.length) (h : (program rounds s).2 = []) :
    avoids seam.rest.length rounds s = true := by
  induction rounds generalizing s with
  | zero => rfl
  | succ rounds ih =>
      by_cases hitems : s.items = []
      · rw [avoids, hitems]
        rfl
      · obtain ⟨made, t, hmade, -, hrest⟩ := exists_ok_of_program hitems h
        have hless := length_of_ok hitems hmade
        rw [avoids_of_ok ((lockstep_statementAt seam maxDepth).late hmade hs) hitems]
        exact ih (by omega) hrest

-- A tag makes no statement.
theorem program_tag {item : Item}
    (hitem : item.token? = some .closeTag ∨ item.token? = some .openTag) (rest : List Item)
    (place : Location) (docs : Docs) (rounds : Nat) :
    program (rounds + 1) ⟨item :: rest, place, docs, []⟩ =
      program rounds ⟨rest, item.location, docs, []⟩ := by
  have hpassed : statementAt maxDepth ⟨item :: rest, place, docs, []⟩ =
      .ok none ⟨rest, item.location, docs, []⟩ :=
    statement_of_passed (hitem.imp_right .inl) rest place docs []
  rw [program_of_ok (List.cons_ne_nil item rest) hpassed]
  rfl

theorem Seam.program_opened (seam : Seam) {more : Nat} (hmore : seam.rest.length < more)
    (place : Location) (docs : Docs) :
    program more ⟨seam.opening :: seam.rest, place, docs, []⟩ =
      program seam.rest.length ⟨seam.rest, seam.opening.location, docs, []⟩ := by
  obtain ⟨more, rfl⟩ : ∃ n, more = n + 1 := ⟨more - 1, by omega⟩
  rw [program_tag (.inr seam.isOpening)]
  exact program_rounds (Nat.le_of_lt_succ hmore) (Nat.le_refl _)

theorem Seam.program_tags (seam : Seam) {more : Nat} (hmore : seam.rest.length + 1 < more)
    (place : Location) (docs : Docs) : program more ⟨seam.closed, place, docs, []⟩ =
      program seam.rest.length ⟨seam.rest, seam.opening.location, docs, []⟩ := by
  obtain ⟨more, rfl⟩ : ∃ n, more = n + 1 := ⟨more - 1, by omega⟩
  rw [Seam.closed, program_tag (.inl seam.isClosing)]
  exact seam.program_opened (by omega) _ docs

theorem Seam.Beyond.program_eq {seam : Seam} {t u : Stream} (h : seam.Beyond t u)
    (hfollows : Follows seam.rest) {rounds more : Nat} (ht : t.items.length ≤ rounds)
    (hu : u.items.length ≤ more) : program more u = program rounds t := by
  have hrest {docs : Docs} (hstream : ∃ last, t = ⟨seam.rest, last, docs, []⟩) :
      program seam.rest.length ⟨seam.rest, seam.opening.location, docs, []⟩ = program rounds t := by
    obtain ⟨last, rfl⟩ := hstream
    rw [program_last _ _ _ last]
    exact program_rounds (Nat.le_refl _) ht
  cases h with
  | left hstream place => exact (seam.program_tags hu place _).trans (hrest (hstream hfollows))
  | opened hstream place => exact (seam.program_opened hu place _).trans (hrest (hstream hfollows))
  | same => exact program_rounds hu ht

-- An alternative starts no statement.
theorem Seam.Beyond.program_ne {seam : Seam} {t u : Stream} (h : seam.Beyond t u)
    (hfollows : ¬Follows seam.rest) {more : Nat} (hu : u.items.length ≤ more) :
    (program more u).2 ≠ [] := by
  have hrest (docs : Docs) :
      (program seam.rest.length ⟨seam.rest, seam.opening.location, docs, []⟩).2 ≠ [] := by
    intro hnil
    obtain ⟨item, rest, hitems, -⟩ := exists_of_not_follows hfollows
    have hne : seam.rest ≠ [] := by
      rw [hitems]
      exact List.cons_ne_nil item rest
    rw [hitems, List.length_cons, ← hitems] at hnil
    obtain ⟨made, t, hmade, -⟩ := exists_ok_of_program hne hnil
    exact statementAt_refuses hfollows maxDepth hmade
  cases h with
  | left hstream place =>
      rw [seam.program_tags hu place]
      exact hrest _
  | opened hstream place =>
      rw [seam.program_opened hu place]
      exact hrest _
  | same hother => exact absurd hother hfollows

-- By induction on the statements in front of the one that ends at the seam.
theorem program_closed (seam : Seam) {rounds more : Nat} {front : List Item} {last : Location}
    {docs : Docs} (hrounds : (front ++ seam.ended).length ≤ rounds)
    (hmore : (front ++ seam.closed).length ≤ more)
    (h : (program rounds ⟨front ++ seam.ended, last, docs, []⟩).2 = [])
    (hends : avoids seam.rest.length rounds ⟨front ++ seam.ended, last, docs, []⟩ = false) :
    ((program more ⟨front ++ seam.closed, last, docs, []⟩).2 = [] ↔ Follows seam.rest) ∧
      (Follows seam.rest →
        (program more ⟨front ++ seam.closed, last, docs, []⟩).1.map Stmt.placeless =
          (program rounds ⟨front ++ seam.ended, last, docs, []⟩).1.map Stmt.placeless) := by
  have hlock := lockstep_statementAt seam maxDepth
  induction rounds generalizing front last docs more with
  | zero => cases hends
  | succ rounds ih =>
      have hended : front ++ seam.ended ≠ [] :=
        List.append_ne_nil_of_right_ne_nil _ (List.cons_ne_nil _ _)
      have hclosed : front ++ seam.closed ≠ [] :=
        List.append_ne_nil_of_right_ne_nil _ (List.cons_ne_nil _ _)
      have hpos := List.length_pos_iff.mpr hclosed
      obtain ⟨more, rfl⟩ : ∃ n, more = n + 1 := ⟨more - 1, by omega⟩
      obtain ⟨made, t, hmade, ht, hrest⟩ := exists_ok_of_program hended h
      have hless : t.items.length < (front ++ seam.ended).length := length_of_ok hended hmade
      by_cases havoids : avoiding seam.rest.length maxDepth ⟨front ++ seam.ended, last, docs, []⟩ =
          .ok made t
      · rw [avoids_of_ok havoids hended] at hends
        have hlength : seam.rest.length < t.items.length := by
          apply Nat.lt_of_not_le
          intro hle
          rw [avoids_of_le seam hle hrest] at hends
          cases hends
        obtain ⟨items, place, filed, errors⟩ := t
        obtain ⟨left, rfl⟩ := Seam.exists_front (hlock.moves.suffix_of_ok hmade) hlength
        obtain rfl : errors = [] := ht
        have hbefore := hlock.before hmade
        have hshorter : (left ++ seam.closed).length < (front ++ seam.closed).length :=
          length_of_ok hclosed hbefore
        have hleft : (left ++ seam.ended).length < (front ++ seam.ended).length := hless
        obtain ⟨herrors, hsame⟩ := @ih more left place filed (by omega) (by omega) hrest hends
        rw [program_of_ok hclosed hbefore, program_of_ok hended hmade]
        refine ⟨herrors, fun hfollows => ?_⟩
        rw [List.map_append, List.map_append, hsame hfollows]
      · rcases hlock.past hmade ht havoids with ⟨another, u, hanother, hsame, hbeyond⟩ | hnone
        · have hshorter : u.items.length < (front ++ seam.closed).length :=
            length_of_ok hclosed hanother
          rw [program_of_ok hclosed hanother, program_of_ok hended hmade]
          by_cases hfollows : Follows seam.rest
          · have hprogram : program more u = program rounds t :=
              hbeyond.program_eq hfollows (by omega) (by omega)
            rw [hprogram]
            refine ⟨iff_of_true hrest hfollows, fun _ => ?_⟩
            rw [List.map_append, List.map_append, ← Option.toList_map, ← Option.toList_map,
              hsame hfollows]
          · have hwrong : (program more u).2 ≠ [] := hbeyond.program_ne hfollows (by omega)
            exact ⟨iff_of_false hwrong hfollows, fun hother => absurd hother hfollows⟩
        · obtain ⟨hfollows, hfails⟩ := hnone
          refine ⟨iff_of_false ?_ hfollows, fun hother => absurd hother hfollows⟩
          intro hnil
          obtain ⟨another, u, hanother, -⟩ := exists_ok_of_program hclosed hnil
          exact hfails another u hanother

-- A comment is filed under the place of the lexeme behind it, whichever lexeme that is.
theorem fileDocs_concat_eq {lexeme other : Lexeme} (hlexeme : lexeme.isDoc = false)
    (hother : other.isDoc = false) (hplace : other.location.start = lexeme.location.start)
    (pending : Option DocComment) (docs : Docs) (before : List Lexeme) :
    fileDocs pending docs (before ++ [other]) = fileDocs pending docs (before ++ [lexeme]) := by
  induction before generalizing pending docs with
  | nil => simp only [List.nil_append, fileDocs_cons hother, fileDocs_cons hlexeme, hplace]
  | cons first before ih =>
      rw [List.cons_append, List.cons_append, fileDocs, fileDocs]
      cases first.doc? with
      | some doc => exact ih (some doc) docs
      | none => exact ih none _

-- Where no comment is in front of the lexeme nothing is filed.
theorem fileDocs_concat {lexeme : Lexeme} (hlexeme : lexeme.isDoc = false) {before : List Lexeme}
    (hbefore : ∀ other ∈ before.getLast?, other.isDoc = false) (docs : Docs) :
    fileDocs none docs (before ++ [lexeme]) = fileDocs none docs before := by
  rw [fileDocs_append docs _ (fun _ => rfl) hbefore, fileDocs_cons hlexeme]
  rfl

-- The comments are the same with the tags. Only one in front of them could make a difference.
theorem fileDocs_closed {semicolon closing opening : Lexeme} (hsemicolon : semicolon.isDoc = false)
    (hclosing : closing.isDoc = false) (hopening : opening.isDoc = false) {before : List Lexeme}
    (hplace : ∀ lexeme ∈ before.getLast?, lexeme.isDoc →
      closing.location.start = semicolon.location.start) (after : List Lexeme) :
    fileDocs none [] (before ++ closing :: opening :: after) =
      fileDocs none [] (before ++ semicolon :: after) := by
  have hbefore : fileDocs none [] (before ++ [closing]) =
      fileDocs none [] (before ++ [semicolon]) := by
    by_cases hdoc : ∃ lexeme ∈ before.getLast?, lexeme.isDoc
    · obtain ⟨lexeme, hlast, hdoc⟩ := hdoc
      exact fileDocs_concat_eq hsemicolon hclosing (hplace lexeme hlast hdoc) none [] before
    · have hplain : ∀ lexeme ∈ before.getLast?, lexeme.isDoc = false := by
        intro lexeme hlast
        rw [← Bool.not_eq_true]
        exact fun hlexeme => hdoc ⟨lexeme, hlast, hlexeme⟩
      rw [fileDocs_concat hclosing hplain, fileDocs_concat hsemicolon hplain]
  have hrest {lexeme : Lexeme} (hlexeme : lexeme.isDoc = false) (rest : List Lexeme) :
      fileDocs none [] (before ++ lexeme :: rest) =
        fileDocs none (fileDocs none [] (before ++ [lexeme])) rest := by
    rw [List.append_cons]
    refine fileDocs_append [] rest (fun _ => rfl) ?_
    intro last hlast
    rw [List.getLast?_concat] at hlast
    cases hlast
    exact hlexeme
  rw [hrest hclosing, hrest hsemicolon, fileDocs_cons hopening, hbefore]
  rfl

end Syntax

open Syntax

-- Whether a statement, at any depth, ends with the last lexeme of the first part.
def statementEnds (before after : List Lexeme) : Bool :=
  let s := Stream.ofLexemes (before ++ after)
  !avoids (itemsOf after).length s.items.length s

-- The closing tag implies a semicolon, except where it would separate a conditional from its
-- alternative. A comment in front of it is to be filed under the same place.
theorem closing_tag_ends_statement_iff {before after : List Lexeme}
    {semicolon closing opening : Lexeme} (hsemicolon : semicolon.content = .ok (.symbol .semicolon))
    (hclosing : closing.content = .ok .closeTag) (hopening : opening.content = .ok .openTag)
    (hplace : ∀ lexeme ∈ before.getLast?, lexeme.isDoc →
      closing.location.start = semicolon.location.start)
    (hparse : (parse (before ++ semicolon :: after)).2 = [])
    (hends : statementEnds (before ++ [semicolon]) after = true) :
    ((parse (before ++ closing :: opening :: after)).2 = [] ↔
        ∀ lexeme ∈ after.find? (!·.isDoc), lexeme.isAlternative = false) ∧
      ((parse (before ++ closing :: opening :: after)).2 = [] →
        (parse (before ++ closing :: opening :: after)).1.map Stmt.placeless =
          (parse (before ++ semicolon :: after)).1.map Stmt.placeless) := by
  let seam : Seam := {
    semicolon, closing, opening
    rest := itemsOf after
    isSemicolon := by rw [Lexeme.token?, hsemicolon]; rfl
    isClosing := by rw [Lexeme.token?, hclosing]; rfl
    isOpening := by rw [Lexeme.token?, hopening]; rfl }
  have hplain : semicolon.isDoc = false ∧ closing.isDoc = false ∧ opening.isDoc = false := by
    simp only [Lexeme.isDoc, hsemicolon, hclosing, hopening, and_self]
  have hended : itemsOf (before ++ semicolon :: after) = itemsOf before ++ seam.ended := by
    rw [itemsOf_append, itemsOf_cons hplain.1]
    rfl
  have hclosed : itemsOf (before ++ closing :: opening :: after) =
      itemsOf before ++ seam.closed := by
    rw [itemsOf_append, itemsOf_cons hplain.2.1, itemsOf_cons hplain.2.2]
    rfl
  let docs := fileDocs none [] (before ++ semicolon :: after)
  have hdocs : fileDocs none [] (before ++ closing :: opening :: after) = docs :=
    fileDocs_closed hplain.1 hplain.2.1 hplain.2.2 hplace after
  let start := (Stream.ofLexemes (before ++ semicolon :: after)).last
  have hold : parse (before ++ semicolon :: after) =
      program (itemsOf before ++ seam.ended).length
        ⟨itemsOf before ++ seam.ended, start, docs, []⟩ := by
    rw [parse_eq _ start, hended]
  have hnew : parse (before ++ closing :: opening :: after) =
      program (itemsOf before ++ seam.closed).length
        ⟨itemsOf before ++ seam.closed, start, docs, []⟩ := by
    rw [parse_eq _ start, hclosed, hdocs]
  have havoids : avoids seam.rest.length (itemsOf before ++ seam.ended).length
      ⟨itemsOf before ++ seam.ended, start, docs, []⟩ = false := by
    rw [statementEnds, List.append_assoc, List.singleton_append, Bool.not_eq_true'] at hends
    rw [← hended]
    exact hends
  rw [hold] at hparse
  rw [hold, hnew]
  obtain ⟨herrors, hsame⟩ :=
    program_closed seam (Nat.le_refl _) (Nat.le_refl _) hparse havoids
  exact ⟨herrors.trans follows_itemsOf_iff, fun hnil => hsame (herrors.mp hnil)⟩

-- Both the semicolon and the closing tag are at the place where the comment is filed.
theorem closing_tag_ends_statement_inMethod :
    let before := lex "<?php class A \x7b function f() \x7b if (1) while (0) echo 1/** d */" "a.php"
    let after := (lex "<?php \x7d public $x; \x7d f();" "a.php").drop 1
    let semicolon : Lexeme := ⟨.ok (.symbol .semicolon), default⟩
    let closing : Lexeme := ⟨.ok .closeTag, default⟩
    let opening : Lexeme := ⟨.ok .openTag, default⟩
    (before.getLast?.any Lexeme.isDoc = true ∧ (parse (before ++ semicolon :: after)).2 = [] ∧
        statementEnds (before ++ [semicolon]) after = true ∧
        ∀ lexeme ∈ after.find? (!·.isDoc), lexeme.isAlternative = false) ∧
      (parse (before ++ closing :: opening :: after)).2 = [] ∧
      (parse (before ++ closing :: opening :: after)).1.map Stmt.placeless =
        (parse (before ++ semicolon :: after)).1.map Stmt.placeless := by
  intro before after semicolon closing opening
  have h : before.getLast?.any Lexeme.isDoc = true ∧
      (parse (before ++ semicolon :: after)).2 = [] ∧
      statementEnds (before ++ [semicolon]) after = true ∧
      ∀ lexeme ∈ after.find? (!·.isDoc), lexeme.isAlternative = false := by
    decide +kernel +revert
  have hiff := @closing_tag_ends_statement_iff before after semicolon closing opening rfl rfl rfl
    (fun _ _ _ => rfl) h.2.1 h.2.2.1
  have hnil := hiff.1.mpr h.2.2.2
  exact ⟨h, hnil, hiff.2 hnil⟩

-- The conditional finds the closing tag in the place of its alternative, and ends.
theorem else_lost_after_closing_tag :
    let before := lex "<?php if (1) echo 1" "a.php"
    let after := (lex "<?php else echo 2;" "a.php").drop 1
    let semicolon : Lexeme := ⟨.ok (.symbol .semicolon), default⟩
    let closing : Lexeme := ⟨.ok .closeTag, default⟩
    let opening : Lexeme := ⟨.ok .openTag, default⟩
    (parse (before ++ semicolon :: after)).2 = [] ∧
      statementEnds (before ++ [semicolon]) after = true ∧
      (parse (before ++ closing :: opening :: after)).2 ≠ [] := by
  decide +kernel

end PhpLint
