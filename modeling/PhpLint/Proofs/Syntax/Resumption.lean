import PhpLint.Proofs.Syntax.Composition
import PhpLint.Proofs.Syntax.Stopping
import PhpLint.Syntax.NodeKind

namespace PhpLint

namespace Syntax

open EStateM (bind_of_error bind_of_ok)
open PhpLint.Syntax.Parser

-- The tokens that can stand in a statement without others in braces, before its end.
def isInner : Token → Bool
  | .symbol .semicolon | .symbol .braceLeft | .symbol .braceRight | .closeTag | .openTag
  | .inlineHtml _ | .docComment _ | .keyword .Function | .keyword .Class | .keyword .Abstract
  | .keyword .Final | .keyword .Const => false
  | _ => true

def Item.IsInner (item : Item) : Prop :=
  item.token?.any isInner

theorem Item.IsInner.exists_token {item : Item} (h : item.IsInner) :
    ∃ token, item.token? = some token ∧ isInner token = true :=
  (Option.any_eq_true _ _).mp h

theorem Item.IsInner.token?_ne {item : Item} (h : item.IsInner) (token : Token)
    (htoken : isInner token = false) : item.token? ≠ some token := by
  obtain ⟨found, hfound, hinner⟩ := h.exists_token
  rw [hfound]
  rintro heq
  rw [Option.some.inj heq, htoken] at hinner
  cases hinner

def Item.IsSemicolon (item : Item) : Prop :=
  item.token? = some (.symbol .semicolon)

theorem Item.IsSemicolon.isStop {item : Item} (h : item.IsSemicolon) : item.IsStop := by
  rw [Item.IsStop, show item.token? = _ from h]
  rfl

-- How a statement ends whose items are followed by a semicolon: it succeeds with the
-- semicolon as its end, or it fails, and then the semicolon is left or not.
inductive Finish (α : Type) where
  | done (a : α) (errors : List SyntaxError)
  | failed (error : SyntaxError) (rest : Stream)
  | taken (error : SyntaxError) (errors : List SyntaxError)

namespace Finish

variable {α : Type}

def result (docs : Docs) (semicolon : Item) (more : List Item) :
    Finish α → EStateM.Result SyntaxError Stream α
  | done a errors => .ok a ⟨more, semicolon.location, docs, errors⟩
  | failed error rest => .error error (rest.followedBy docs (semicolon :: more))
  | taken error errors => .error error ⟨more, semicolon.location, docs, errors⟩

-- What is left was there before.
def Within (items : List Item) : Finish α → Prop
  | failed _ rest => rest.items <:+ items
  | done _ _ | taken _ _ => True

theorem Within.trans {items more : List Item} {finish : Finish α} (h : finish.Within items)
    (hsuffix : items <:+ more) : finish.Within more := by
  cases finish with
  | failed => exact List.IsSuffix.trans h hsuffix
  | done | taken => trivial

end Finish

-- The way in which a statement ends does not depend on what is behind the semicolon, nor on
-- any comments.
def Parser.FinishesAt {α : Type} (s : Stream) (p : Parser α) : Prop :=
  ∀ semicolon : Item, semicolon.IsSemicolon → ∃ finish : Finish α, finish.Within s.items ∧
    ∀ docs more, Follows more →
      p (s.followedBy docs (semicolon :: more)) = finish.result docs semicolon more

def Parser.Finishes {α : Type} (p : Parser α) : Prop :=
  ∀ s : Stream, (∀ item ∈ s.items, item.IsInner) → p.FinishesAt s

-- What is done after the semicolon takes nothing more.
def Parser.Rests {α : Type} (p : Parser α) : Prop :=
  ∀ last errors, ∃ a, ∀ docs items, Follows items →
    p ⟨items, last, docs, errors⟩ = .ok a ⟨items, last, docs, errors⟩

namespace Parser

section Rules

variable {α β : Type} {s : Stream} {p : Parser α} {f : α → Parser β}

theorem rests_pure (a : α) : Rests (pure a : Parser α) :=
  fun _ _ => ⟨a, fun _ _ _ => rfl⟩

theorem rests_last : Rests last :=
  fun last _ => ⟨last, fun _ _ _ => rfl⟩

theorem Rests.bind (hp : Rests p) (hf : ∀ a, Rests (f a)) : Rests (p >>= f) := by
  intro last errors
  obtain ⟨a, ha⟩ := hp last errors
  obtain ⟨b, hb⟩ := hf a last errors
  refine ⟨b, ?_⟩
  intro docs items hitems
  rw [bind_of_ok (ha docs items hitems)]
  exact hb docs items hitems

theorem rests_spanFrom (start : Option Location) : Rests (spanFrom start) :=
  rests_last.bind fun _ => rests_pure _

theorem FinishesAt.of_eq {q : Parser α} (h : FinishesAt s q)
    (heq : ∀ stop docs more,
      p (s.followedBy docs (stop :: more)) = q (s.followedBy docs (stop :: more))) :
    FinishesAt s p := by
  intro semicolon hsemicolon
  obtain ⟨finish, hwithin, hresult⟩ := h semicolon hsemicolon
  refine ⟨finish, hwithin, ?_⟩
  intro docs more hmore
  rw [heq]
  exact hresult docs more hmore

-- What is seen in front stays there.
theorem finishesAt_look {item : Item} {rest : List Item} {last : Location} {docs : Docs}
    {errors : List SyntaxError} {a : α}
    (hp : ∀ rest docs,
      p ⟨item :: rest, last, docs, errors⟩ = .ok a ⟨item :: rest, last, docs, errors⟩)
    (hf : FinishesAt ⟨item :: rest, last, docs, errors⟩ (f a)) :
    FinishesAt ⟨item :: rest, last, docs, errors⟩ (p >>= f) :=
  hf.of_eq fun stop docs more => bind_of_ok (hp (rest ++ stop :: more) docs)

theorem HaltsAt.finishesAt (hp : HaltsAt s p) (hf : ∀ a, Finishes (f a))
    (hs : ∀ item ∈ s.items, item.IsInner) : FinishesAt s (p >>= f) := by
  intro semicolon hsemicolon
  obtain ⟨cut, hcut⟩ := hp
  have hresult := hcut.result_eq semicolon hsemicolon.isStop
  have hwithin := hcut.within semicolon hsemicolon.isStop
  cases hone : cut semicolon with
  | done a t =>
      rw [hone] at hresult hwithin
      have hinner : ∀ item ∈ t.items, item.IsInner := fun item hitem =>
        hs item (hwithin.1.subset hitem)
      obtain ⟨finish, hrest, hfinish⟩ := hf a t hinner semicolon hsemicolon
      refine ⟨finish, hrest.trans hwithin.1, ?_⟩
      intro docs more hmore
      rw [bind_of_ok (hresult docs more)]
      exact hfinish docs more hmore
  | failed error t =>
      rw [hone] at hresult hwithin
      exact ⟨.failed error t, hwithin.1, fun docs more _ => bind_of_error (hresult docs more)⟩
  | taken error errors =>
      rw [hone] at hresult
      exact ⟨.taken error errors, trivial, fun docs more _ => bind_of_error (hresult docs more)⟩

theorem Halts.finishes (hp : Halts p) (hf : ∀ a, Finishes (f a)) : Finishes (p >>= f) :=
  fun s => (hp s).finishesAt hf

theorem FinishesAt.andThen (hp : FinishesAt s p) (hf : ∀ a, Rests (f a)) :
    FinishesAt s (p >>= f) := by
  intro semicolon hsemicolon
  obtain ⟨finish, hwithin, hresult⟩ := hp semicolon hsemicolon
  cases finish with
  | done a errors =>
      obtain ⟨b, hb⟩ := hf a semicolon.location errors
      refine ⟨.done b errors, trivial, ?_⟩
      intro docs more hmore
      rw [bind_of_ok (hresult docs more hmore)]
      exact hb docs more hmore
  | failed error t =>
      exact ⟨.failed error t, hwithin,
        fun docs more hmore => bind_of_error (hresult docs more hmore)⟩
  | taken error errors =>
      exact ⟨.taken error errors, trivial,
        fun docs more hmore => bind_of_error (hresult docs more hmore)⟩

theorem Finishes.andThen (hp : Finishes p) (hf : ∀ a, Rests (f a)) : Finishes (p >>= f) :=
  fun s hs => (hp s hs).andThen hf

theorem Finishes.spanned {f : α → Location → β} (hp : Finishes p) (start : Option Location) :
    Finishes (do let a ← p; return f a (← spanFrom start)) :=
  hp.andThen fun _ => (rests_spanFrom start).bind fun _ => rests_pure _

end Rules

end Parser

-- An item that is no semicolon is taken and turned down.
theorem finishes_terminator : Finishes terminator := by
  rintro ⟨_ | ⟨item, rest⟩, last, docs, errors⟩ hs semicolon hsemicolon
  · refine ⟨.done () errors, trivial, fun docs more _ => ?_⟩
    exact terminator_of_semicolon hsemicolon more last docs errors
  · have hinner := hs item (List.mem_cons_self ..)
    obtain ⟨token, htoken, -⟩ := hinner.exists_token
    refine ⟨.failed (.unexpectedToken .semicolon item.location) ⟨rest, item.location, docs, errors⟩,
      List.suffix_cons item rest, fun docs more _ => ?_⟩
    have hclose := isNext_of_ne (hinner.token?_ne .closeTag rfl)
      (rest ++ semicolon :: more) last docs errors
    have hne : token ≠ .symbol .semicolon := fun h =>
      hinner.token?_ne (.symbol .semicolon) rfl (htoken.trans (congrArg some h))
    have hother := expect_of_ne .semicolon htoken hne (rest ++ semicolon :: more) last docs errors
    rw [Stream.followedBy_mk, List.cons_append, terminator, bind_of_ok hclose]
    exact hother

section Statements

variable {parts : Parts}

structure Parts.Finishes (parts : Parts) : Prop where
  expression : Halts parts.expression
  statement : Parser.Finishes parts.statement

theorem finishes_expressionStatement (hp : parts.Finishes) (start : Option Location) :
    Finishes (expressionStatement parts start) :=
  hp.expression.finishes fun _ => finishes_terminator.spanned start

theorem finishes_echo [Parts.Moves (fun s t => t.items <:+ s.items) parts] (hp : parts.Finishes)
    (start : Option Location) : Finishes (echo parts start) := by
  apply hp.expression.finishes
  intro first
  apply (halts_moreExpressions hp.expression first).finishes
  intro expressions
  exact finishes_terminator.spanned start

theorem finishes_returned (hp : parts.Finishes) (start : Option Location) :
    Finishes (returned parts start) := by
  have hvalued : Finishes (do
      let value ← some <$> parts.expression
      terminator
      return Stmt.ret value (← spanFrom start)) := by
    simp only [map_eq_pure_bind, bind_assoc, pure_bind]
    exact hp.expression.finishes fun _ => finishes_terminator.spanned start
  rintro ⟨_ | ⟨item, rest⟩, last, docs, errors⟩ hs
  · intro semicolon hsemicolon
    rw [eq_of_token? hsemicolon]
    exact ⟨.done (.ret none (start.elim semicolon.location (·.cover semicolon.location))) errors,
      trivial, fun _ _ _ => rfl⟩
  · have hinner := hs item (List.mem_cons_self ..)
    apply (hvalued _ hs).of_eq
    intro stop docs more
    have hsemicolon := isNext_of_ne (hinner.token?_ne (.symbol .semicolon) rfl)
      (rest ++ stop :: more) last docs errors
    have hclose := isNext_of_ne (hinner.token?_ne .closeTag rfl)
      (rest ++ stop :: more) last docs errors
    rw [Stream.followedBy_mk, List.cons_append, returned, bind_of_ok hsemicolon, bind_of_ok hclose]
    rfl

theorem finishes_controlled (hp : parts.Finishes) : Finishes (controlled parts) := by
  apply hp.statement.andThen
  intro made
  cases made with
  | some statement => exact rests_pure _
  | none => exact rests_last.bind fun _ => rests_pure _

theorem finishes_clause (hp : parts.Finishes) (start : Option Location) :
    Finishes (clause parts start) :=
  (halts_condition hp.expression).finishes fun _ =>
    (finishes_controlled hp).andThen fun _ => rests_pure _

-- What follows is no alternative.
theorem rests_alternatives : Rests (alternatives parts) := by
  intro last errors
  refine ⟨([], none), ?_⟩
  intro docs items hitems
  exact bind_of_ok (anotherClause_of_follows hitems [] last docs errors)

theorem finishes_conditional (hp : parts.Finishes) (start : Option Location) :
    Finishes (conditional parts start) := by
  apply (finishes_clause hp start).andThen
  intro first
  apply rests_alternatives.bind
  intro read
  exact rests_last.bind fun _ => rests_pure _

theorem finishes_whileLoop (hp : parts.Finishes) (start : Option Location) :
    Finishes (whileLoop parts start) :=
  (halts_condition hp.expression).finishes fun _ => (finishes_controlled hp).spanned start

theorem finishes_statement [Parts.Moves (fun s t => t.items <:+ s.items) parts]
    (hp : parts.Finishes) : Finishes (statement parts) := by
  rintro ⟨_ | ⟨item, rest⟩, last, docs, errors⟩ hs
  · intro semicolon hsemicolon
    rw [eq_of_token? hsemicolon]
    exact ⟨.done none errors, trivial, fun _ _ _ => rfl⟩
  · have hinner := hs item (List.mem_cons_self ..)
    have hsome {p : Parser Stmt} (hp : Finishes p) : Finishes (do return some (← p)) :=
      hp.andThen fun _ => rests_pure _
    have hword {p : Parser Stmt} (hp : Finishes p) :
        FinishesAt ⟨item :: rest, last, docs, errors⟩ (do advance; return some (← p)) := by
      have hadvance := haltsAt_advance item rest last docs errors (halts_pure ())
      rw [bind_pure] at hadvance
      exact hadvance.finishesAt (fun _ => hsome hp) hs
    refine finishesAt_look (fun _ _ => rfl) (finishesAt_look (fun _ _ => rfl) ?_)
    split
    case h_5 => exact hword (finishes_echo hp _)
    case h_6 => exact hword (finishes_returned hp _)
    case h_7 => exact hword (finishes_conditional hp _)
    case h_8 => exact hword (finishes_whileLoop hp _)
    case h_15 => exact hsome (finishes_expressionStatement hp _) _ hs
    all_goals
      next h => exact absurd h (hinner.token?_ne _ rfl)

end Statements

theorem finishes_statementAt (depth : Nat) : Finishes (statementAt depth) := by
  induction depth with
  | zero => exact fun s _ _ _ => ⟨.failed (.tooDeep s.last) s, List.suffix_rfl, fun _ _ _ => rfl⟩
  | succ depth ih =>
      have hmoves : Parts.Moves (fun s t => t.items <:+ s.items)
          ⟨(nestedAt depth).expression, statementAt depth⟩ := ⟨inferInstance, inferInstance⟩
      exact finishes_statement ⟨(halts_nestedAt depth).expression, ih⟩

theorem startsDeclaration_of_isInner {token : Token} (h : isInner token = true) :
    startsDeclaration token = false ∧ endsStatement token = false := by
  fun_cases isInner token <;> simp_all [isInner, startsDeclaration, endsStatement]

-- The recovery skips the rest of the statement with its semicolon.
theorem skipStatement_append {items : List Item} (hitems : ∀ item ∈ items, item.IsInner)
    {semicolon : Item} (hsemicolon : semicolon.IsSemicolon) (more : List Item) (last : Location) :
    skipStatement (items ++ semicolon :: more) last = (more, semicolon.location) := by
  induction items generalizing last with
  | nil =>
      rw [List.nil_append, skipStatement, show semicolon.token? = _ from hsemicolon]
      rfl
  | cons item rest ih =>
      obtain ⟨token, htoken, hinner⟩ := (hitems item (List.mem_cons_self ..)).exists_token
      obtain ⟨hstarts, hends⟩ := startsDeclaration_of_isInner hinner
      rw [List.cons_append, skipStatement, htoken]
      simp only [hstarts, hends, Bool.false_eq_true, if_false]
      exact ih (fun other hother => hitems other (List.mem_cons_of_mem _ hother)) item.location

-- Whether the statement fails on the last item, which was to end it.
def failsAtEnd (s : Stream) : Bool :=
  match statementAt maxDepth s with
  | .ok _ _ => false
  | .error _ t => t.items.isEmpty

section Program

variable {s : Stream} {semicolon : Item}

theorem followedBy_cons_ne_nil (s : Stream) (docs : Docs) (item : Item) (more : List Item) :
    (s.followedBy docs (item :: more)).items ≠ [] := by
  simp [Stream.followedBy]

theorem follows_nil : Follows [] := by
  rintro _ ⟨⟩

-- A statement that fails before its semicolon. The first item is the same whatever follows.
theorem exists_program_of_failed (hsemicolon : semicolon.IsSemicolon) {e : SyntaxError}
    {t : Stream} (ht : ∀ item ∈ t.items, item.IsInner)
    (hresult : ∀ docs more, Follows more →
      statementAt maxDepth (s.followedBy docs (semicolon :: more)) =
        .error e (t.followedBy docs (semicolon :: more))) :
    ∃ place, ∀ docs more, Follows more → ∀ rounds,
      program (rounds + 1) (s.followedBy docs (semicolon :: more)) =
        (.invalid place :: (program rounds ⟨more, semicolon.location, docs, e :: t.errors⟩).1,
          (program rounds ⟨more, semicolon.location, docs, e :: t.errors⟩).2) := by
  obtain ⟨first, tail, hfirst⟩ :=
    List.exists_cons_of_ne_nil (followedBy_cons_ne_nil s [] semicolon [])
  refine ⟨first.location.cover t.last, ?_⟩
  intro docs more hmore rounds
  have hstream : s.followedBy docs (semicolon :: more) =
      ⟨first :: (tail ++ more), s.last, docs, s.errors⟩ := by
    have hitems : s.items ++ [semicolon] = first :: tail := hfirst
    rw [Stream.followedBy, ← List.cons_append, ← hitems, List.append_assoc]
    rfl
  have hfails := hresult docs more hmore
  have hresume : resume (s.followedBy docs (semicolon :: more))
      (t.followedBy docs (semicolon :: more)) e =
      ⟨more, semicolon.location, docs, e :: t.errors⟩ := by
    have hskip := skipStatement_append ht hsemicolon more t.last
    rw [resume_eq (followedBy_cons_ne_nil s docs semicolon more) hfails]
    simp only [Stream.recover, Stream.followedBy, hskip]
  rw [hstream] at hfails hresume ⊢
  rw [program_cons_of_error hfails, hresume]
  rfl

-- What was reported before comes first, and makes no other difference.
theorem program_since (rounds : Nat) (items : List Item) (last : Location) (docs : Docs)
    (errors : List SyntaxError) :
    program rounds ⟨items, last, docs, errors⟩ =
      ((program rounds ⟨items, last, docs, []⟩).1,
        errors.reverse ++ (program rounds ⟨items, last, docs, []⟩).2) :=
  program_of_resembles rounds (.mk fun _ _ => rfl)

-- Whatever becomes of the statement, parsing goes on behind the semicolon.
theorem exists_program_followedBy (hs : ∀ item ∈ s.items, item.IsInner)
    (hsemicolon : semicolon.IsSemicolon)
    (h : failsAtEnd (s.followedBy [] [semicolon]) = false) :
    ∃ (statements : List Stmt) (errors : List SyntaxError),
      ∀ docs more, Follows more → ∀ rounds,
        program (rounds + 1) (s.followedBy docs (semicolon :: more)) =
          (statements ++ (program rounds ⟨more, semicolon.location, docs, []⟩).1,
            errors.reverse ++ (program rounds ⟨more, semicolon.location, docs, []⟩).2) := by
  obtain ⟨finish, hwithin, hresult⟩ := finishes_statementAt maxDepth s hs semicolon hsemicolon
  cases finish with
  | done made errors =>
      refine ⟨made.toList, errors, ?_⟩
      intro docs more hmore rounds
      have hrest := program_since rounds more semicolon.location docs errors
      rw [program_of_ok (followedBy_cons_ne_nil s docs semicolon more) (hresult docs more hmore)]
      exact congrArg (fun rest => (made.toList ++ rest.1, rest.2)) hrest
  | failed e t =>
      have ht : ∀ item ∈ t.items, item.IsInner := fun item hitem =>
        hs item (List.IsSuffix.subset hwithin hitem)
      obtain ⟨place, hprogram⟩ := exists_program_of_failed hsemicolon ht hresult
      refine ⟨[.invalid place], e :: t.errors, ?_⟩
      intro docs more hmore rounds
      have hrest := program_since rounds more semicolon.location docs (e :: t.errors)
      rw [hprogram docs more hmore]
      exact congrArg (fun rest => (.invalid place :: rest.1, rest.2)) hrest
  | taken error errors =>
      rw [failsAtEnd, hresult [] [] follows_nil] at h
      cases h

-- If it fails at its end, what follows up to another semicolon is skipped with it.
theorem exists_program_of_failsAtEnd (hs : ∀ item ∈ s.items, item.IsInner)
    (hsemicolon : semicolon.IsSemicolon) (h : failsAtEnd (s.followedBy [] [semicolon]) = true)
    {items : List Item} (hitems : ∀ item ∈ items, item.IsInner) {another : Item}
    (hanother : another.IsSemicolon) (hfollows : Follows (items ++ [another])) (docs : Docs)
    (rounds : Nat) :
    ∃ place, (program (rounds + 1) (s.followedBy docs (semicolon :: (items ++ [another])))).1 =
      [.invalid place] := by
  obtain ⟨finish, -, hresult⟩ := finishes_statementAt maxDepth s hs semicolon hsemicolon
  rw [failsAtEnd, hresult [] [] follows_nil] at h
  cases finish with
  | done made errors => cases h
  | failed e rest =>
      have hnil := List.isEmpty_iff.mp h
      exact absurd hnil (followedBy_cons_ne_nil rest [] semicolon [])
  | taken e errors =>
      have hne := followedBy_cons_ne_nil s docs semicolon (items ++ [another])
      have hstatement := hresult docs (items ++ [another]) hfollows
      obtain ⟨place, hprogram⟩ := @exists_program_of_error rounds _ _ _ hne hstatement
      have hskip := skipStatement_append hitems hanother [] semicolon.location
      have hnil : (resume (s.followedBy docs (semicolon :: (items ++ [another])))
          ⟨items ++ [another], semicolon.location, docs, errors⟩ e).items = [] := by
        rw [resume_eq hne hstatement]
        simp only [Stream.recover, hskip]
      refine ⟨place, ?_⟩
      rw [hprogram, program_of_nil hnil]

end Program

end Syntax

open Syntax

def Lexeme.isInner (lexeme : Lexeme) : Bool :=
  match lexeme.content with
  | .ok token => Syntax.isInner token
  | .error _ => false

theorem Lexeme.isDoc_of_isInner {lexeme : Lexeme} (h : lexeme.isInner = true) :
    lexeme.isDoc = false := by
  unfold Lexeme.isInner at h
  unfold Lexeme.isDoc
  split
  case h_1 text hcontent =>
    rw [hcontent] at h
    cases h
  case h_2 => rfl

theorem Lexeme.item_isInner {lexeme : Lexeme} (h : lexeme.isInner = true) :
    Item.IsInner lexeme := by
  unfold Lexeme.isInner at h
  rw [Item.IsInner, Lexeme.token?]
  cases hcontent : lexeme.content with
  | ok token =>
      rw [hcontent] at h
      exact h
  | error error =>
      rw [hcontent] at h
      cases h

-- $x ;
def variableLexemes : List Lexeme :=
  [⟨.ok (.var "x"), default⟩, ⟨.ok (.symbol .semicolon), default⟩]

section Semicolon

variable {front : List Lexeme} {semicolon : Lexeme}
  (hfront : ∀ lexeme ∈ front, lexeme.isInner = true)
  (hsemicolon : semicolon.content = .ok (.symbol .semicolon))
include hfront hsemicolon

theorem isDoc_statement : ∀ lexeme ∈ front ++ [semicolon], lexeme.isDoc = false := by
  refine List.forall_mem_append.mpr ⟨?_, List.forall_mem_singleton.mpr ?_⟩
  · exact fun lexeme hlexeme => Lexeme.isDoc_of_isInner (hfront lexeme hlexeme)
  · rw [Lexeme.isDoc, hsemicolon]

theorem itemsOf_statement (rest : List Lexeme) :
    itemsOf (front ++ semicolon :: rest) = front ++ semicolon :: itemsOf rest := by
  rw [List.append_cons, itemsOf_append, itemsOf_of_plain (isDoc_statement hfront hsemicolon),
    ← List.append_cons]

-- No comment is in front of the semicolon.
theorem fileDocs_statement (rest : List Lexeme) :
    fileDocs none [] (front ++ semicolon :: rest) = fileDocs none [] rest := by
  have hplain := isDoc_statement hfront hsemicolon
  rw [List.append_cons, fileDocs_append [] rest (fun _ => rfl), fileDocs_of_plain hplain]
  exact fun lexeme hlexeme => hplain lexeme (List.mem_of_mem_getLast? hlexeme)

theorem ofLexemes_statement :
    Stream.ofLexemes (front ++ [semicolon]) =
      Stream.followedBy ⟨front, (Stream.ofLexemes (front ++ [semicolon])).last, [], []⟩ []
        [semicolon] := by
  have hplain := isDoc_statement hfront hsemicolon
  change (⟨itemsOf (front ++ [semicolon]), _, fileDocs none [] (front ++ [semicolon]), []⟩ :
    Stream) = _
  rw [itemsOf_of_plain hplain, fileDocs_of_plain hplain]
  rfl

theorem parse_statement (last : Location) (rest : List Lexeme) :
    parse (front ++ semicolon :: rest) =
      program (front.length + (itemsOf rest).length + 1)
        (Stream.followedBy ⟨front, last, [], []⟩ (fileDocs none [] rest)
          (semicolon :: itemsOf rest)) := by
  rw [parse_eq _ last, itemsOf_statement hfront hsemicolon, fileDocs_statement hfront hsemicolon,
    List.length_append, List.length_cons]
  rfl

omit hfront in
theorem isSemicolon_of_content : Item.IsSemicolon semicolon := by
  rw [Item.IsSemicolon, Lexeme.token?, hsemicolon]
  rfl

theorem parse_of_not_failsAtEnd
    (h : failsAtEnd (Stream.ofLexemes (front ++ [semicolon])) = false) {rest : List Lexeme}
    (hrest : ∀ lexeme ∈ rest.find? (!·.isDoc), lexeme.isAlternative = false) :
    parse (front ++ semicolon :: rest) =
      ((parse (front ++ [semicolon])).1 ++ (parse rest).1,
        (parse (front ++ [semicolon])).2 ++ (parse rest).2) := by
  have hinner : ∀ item ∈ front, Item.IsInner item := fun item hitem =>
    Lexeme.item_isInner (hfront item hitem)
  rw [ofLexemes_statement hfront hsemicolon] at h
  obtain ⟨statements, errors, hprogram⟩ :=
    exists_program_followedBy hinner (isSemicolon_of_content hsemicolon) h
  have hparse {rest : List Lexeme}
      (hrest : ∀ lexeme ∈ rest.find? (!·.isDoc), lexeme.isAlternative = false) :
      parse (front ++ semicolon :: rest) =
        (statements ++ (parse rest).1, errors.reverse ++ (parse rest).2) := by
    have hrounds := program_rounds
      (s := ⟨itemsOf rest, semicolon.location, fileDocs none [] rest, []⟩)
      (Nat.le_add_left _ front.length) (Nat.le_refl _)
    rw [parse_statement hfront hsemicolon _ rest, hprogram _ _ (follows_itemsOf_iff.mpr hrest),
      hrounds, ← parse_eq]
  have hempty : parse (front ++ [semicolon]) = (statements ++ [], errors.reverse ++ []) :=
    hparse (by rintro _ ⟨⟩)
  rw [hparse hrest, hempty, List.append_nil, List.append_nil]

theorem exists_parse_of_failsAtEnd
    (h : failsAtEnd (Stream.ofLexemes (front ++ [semicolon])) = true) :
    ∃ place, (parse (front ++ semicolon :: variableLexemes)).1 = [.invalid place] := by
  have hinner : ∀ item ∈ front, Item.IsInner item := fun item hitem =>
    Lexeme.item_isInner (hfront item hitem)
  rw [ofLexemes_statement hfront hsemicolon] at h
  have hitems : ∀ item ∈ [(⟨.ok (.var "x"), default⟩ : Item)], Item.IsInner item :=
    List.forall_mem_singleton.mpr rfl
  have hanother : Item.IsSemicolon ⟨.ok (.symbol .semicolon), default⟩ := rfl
  rw [parse_statement hfront hsemicolon _ variableLexemes]
  apply exists_program_of_failsAtEnd hinner (isSemicolon_of_content hsemicolon) h hitems hanother
  rintro _ ⟨⟩
  exact ⟨by decide, by decide⟩

end Semicolon

-- A statement that is malformed leaves what follows its semicolon alone exactly if it does
-- not fail on that semicolon. Then both parts are parsed as if each stood alone.
theorem next_statement_kept_iff {front : List Lexeme} {semicolon : Lexeme}
    (hfront : ∀ lexeme ∈ front, lexeme.isInner = true)
    (hsemicolon : semicolon.content = .ok (.symbol .semicolon)) :
    ((∀ rest : List Lexeme, (∀ lexeme ∈ rest.find? (!·.isDoc), lexeme.isAlternative = false) →
        (parse rest).1 <:+ (parse (front ++ semicolon :: rest)).1 ∧
          (parse rest).2 <:+ (parse (front ++ semicolon :: rest)).2) ↔
      failsAtEnd (Stream.ofLexemes (front ++ [semicolon])) = false) ∧
    (failsAtEnd (Stream.ofLexemes (front ++ [semicolon])) = false →
      ∀ rest : List Lexeme, (∀ lexeme ∈ rest.find? (!·.isDoc), lexeme.isAlternative = false) →
        parse (front ++ semicolon :: rest) =
          ((parse (front ++ [semicolon])).1 ++ (parse rest).1,
            (parse (front ++ [semicolon])).2 ++ (parse rest).2)) := by
  refine ⟨⟨?_, ?_⟩, ?_⟩
  · intro hkept
    rw [← Bool.not_eq_true]
    intro hfails
    have hvariable : (parse variableLexemes).1 =
        [.expr (.var "x" default) ((default : Location).cover default)] := rfl
    obtain ⟨place, hplace⟩ := exists_parse_of_failsAtEnd hfront hsemicolon hfails
    have hsuffix := (hkept variableLexemes (by decide)).1
    rw [hvariable, hplace] at hsuffix
    have heq := hsuffix.eq_of_length_le (Nat.le_refl 1)
    cases heq
  · intro hends rest hrest
    rw [parse_of_not_failsAtEnd hfront hsemicolon hends hrest]
    exact ⟨List.suffix_append _ _, List.suffix_append _ _⟩
  · intro hends rest hrest
    exact parse_of_not_failsAtEnd hfront hsemicolon hends hrest

def semicolonLexeme : Lexeme :=
  ⟨.ok (.symbol .semicolon), default⟩

-- echo 1 2 3; echo 4; where the second number is turned down and the third one skipped.
theorem next_statement_kept_afterNumber :
    let front := (lex "<?php echo 1 2 3" "a.php").drop 1
    let rest := (lex "<?php echo 4;" "a.php").drop 1
    failsAtEnd (Stream.ofLexemes (front ++ [semicolonLexeme])) = false ∧
      (parse (front ++ [semicolonLexeme])).2 ≠ [] ∧
      parse (front ++ semicolonLexeme :: rest) =
        ((parse (front ++ [semicolonLexeme])).1 ++ (parse rest).1,
          (parse (front ++ [semicolonLexeme])).2 ++ (parse rest).2) := by
  intro front rest
  have hends : failsAtEnd (Stream.ofLexemes (front ++ [semicolonLexeme])) = false := by
    decide +kernel
  have hkept := (@next_statement_kept_iff front semicolonLexeme (by decide +kernel) rfl).2 hends
    rest (by decide +kernel)
  exact ⟨hends, by decide +kernel, hkept⟩

-- $a->; echo 1; where the semicolon is turned down as the name of a member, so that the
-- next one is taken for the end of the statement that failed.
theorem next_statement_lost :
    let front := (lex "<?php $a->" "a.php").drop 1
    let rest := (lex "<?php echo 1;" "a.php").drop 1
    (∀ lexeme ∈ front, lexeme.isInner = true) ∧
      (∀ lexeme ∈ rest.find? (!·.isDoc), lexeme.isAlternative = false) ∧
      ¬ (parse rest).1 <:+ (parse (front ++ semicolonLexeme :: rest)).1 := by
  intro front rest
  refine ⟨by decide +kernel, by decide +kernel, ?_⟩
  have hrest : (parse rest).1.map Stmt.kind = [.echo] := by decide +kernel
  have hwhole : (parse (front ++ semicolonLexeme :: rest)).1.map Stmt.kind = [.invalidStmt] := by
    decide +kernel
  intro hsuffix
  have hkinds := hsuffix.map Stmt.kind
  rw [hrest, hwhole] at hkinds
  cases hkinds.eq_of_length_le (Nat.le_refl 1)

end PhpLint
