import PhpLint.Proofs.Syntax.Bodies
import PhpLint.Proofs.Syntax.Terminators

namespace PhpLint.Syntax

open EStateM (bind_eq_ok_iff bind_of_ok)
open PhpLint.Syntax.Parser

theorem statement_of_passed {parts : Parts} {item : Item}
    (hitem : item.token? = some .closeTag ∨ item.token? = some .openTag ∨
      item.token? = some (.symbol .semicolon)) (rest : List Item) (last : Location) (docs : Docs)
    (errors : List SyntaxError) :
    statement parts ⟨item :: rest, last, docs, errors⟩ =
      .ok none ⟨rest, item.location, docs, errors⟩ := by
  rcases hitem with hitem | hitem | hitem
  all_goals
    rw [eq_of_token? hitem]
    rfl

-- A statement is chosen by what is seen of the item in front.
theorem lockstepAt_looks {α : Type} {seam : Seam} {Past : α → Stream → α → Stream → Prop}
    {item : Item} {docs : Docs} {f g : Option Location → Option Token → Parser α}
    (h : LockstepAt seam Past item docs (f (some item.location) item.token?)
      (g (some item.location) item.token?)) :
    LockstepAt seam Past item docs (do f (← location?) (← peek?)) (do g (← location?) (← peek?)) :=
  h

theorem Parser.Lockstep.beyond {α β : Type} {seam : Seam} {e : α → β} {p q : Parser α}
    (h : Lockstep seam (seam.Joined e seam.Same) p q) :
    Lockstep seam (seam.Joined e seam.Beyond) p q := by
  apply h.mono
  rintro _ a t b _ _ ⟨hsame, hfollows, rfl⟩
  exact ⟨hsame, .same hfollows t⟩

section Statements

variable {seam : Seam} {parts other : Parts}
  [Parts.Moves (fun s t => s.errors <:+ t.errors) parts]
  [Parts.Moves (fun s t => t.items <:+ s.items) parts] (h : parts.Lockstep seam other)
include h

-- One case for each word that a statement can start with.
theorem lockstep_statement :
    Lockstep seam (seam.Joined (Option.map Stmt.placeless) seam.Beyond) (statement parts)
      (statement other) := by
  have hagrees := h.agrees
  have hsome {p q : Parser Stmt} (hp : Lockstep seam (seam.Joined Stmt.placeless seam.Beyond) p q) :
      Lockstep seam (seam.Joined (Option.map Stmt.placeless) seam.Beyond)
        (do return some (← p)) (do return some (← q)) :=
    Lockstep.finish (k := fun made _ => some made) hp (fun _ _ => rfl)
      (fun _ _ _ _ hsame => congrArg some hsame) inferInstance
  have hword {p q : Parser Stmt} (hp : Lockstep seam (seam.Joined Stmt.placeless seam.Beyond) p q) :
      Lockstep seam (seam.Joined (Option.map Stmt.placeless) seam.Beyond)
        (do advance; return some (← p)) (do advance; return some (← q)) :=
    blind_advance.bind fun _ => hsome hp
  have hblock : Lockstep seam (seam.Joined (Option.map Stmt.placeless) seam.Beyond)
      (do advance; return some (.block (← block parts (← last))))
      (do advance; return some (.block (← block other (← last)))) := by
    apply blind_advance.bind
    intro _
    apply blind_last.bind
    intro start
    refine Lockstep.finish (k := fun body _ => some (.block body)) (lockstep_block h start).beyond
      (fun _ _ => rfl) ?_ inferInstance
    intro body another last place hsame
    simp only [Option.map_some, Stmt.placeless, hsame]
  have hhtml : Blind seam (do advance; return some (Stmt.html (← last))) :=
    blind_advance.bind fun _ => blind_last.bind fun _ => blind_pure _
  obtain ⟨expression, watched⟩ := other
  obtain rfl : expression = parts.expression := h.same
  have hskip : Blind seam (do advance; return (none : Option Stmt)) :=
    blind_advance.bind fun _ => blind_pure none
  refine Lockstep.ofFront (fun _ _ _ _ _ hend => hend) (.inr ⟨_, _, hskip.lockstep, ?_⟩) ?_
  · intro last docs
    exact ⟨statement_of_passed (.inr (.inr seam.isSemicolon)) _ last docs [],
      statement_of_passed (.inr (.inr seam.isSemicolon)) _ last docs [],
      statement_of_passed (.inl seam.isClosing) _ last docs []⟩
  · intro item docs
    refine lockstepAt_looks ?_
    generalize some item.location = start
    generalize item.token? = token?
    split
    case h_11 =>
      exact .documented item docs fun doc => hword (lockstep_functionDeclaration h doc start).beyond
    case h_12 | h_13 | h_14 =>
      exact .documented item docs fun doc => hsome (lockstep_classDeclaration h doc start).beyond
    all_goals refine Lockstep.lockstepAt ?_ item docs
    case h_1 | h_2 | h_3 => exact hskip.lockstep
    case h_4 => exact hhtml.lockstep
    case h_5 => exact hword (terminated_echo h.expression start).blind.lockstep
    case h_6 => exact hword (terminated_returned h.expression start).blind.lockstep
    case h_7 => exact hword (lockstep_conditional h start)
    case h_8 => exact hword (lockstep_whileLoop h start)
    case h_9 => exact hblock
    case h_10 => exact hword (terminated_constantDeclaration h.expression start).blind.lockstep
    case h_15 => exact hsome (terminated_expressionStatement h.expression start).blind.lockstep

end Statements

section Avoiding

variable {α β : Type} {left : Nat} {parts : Parts}

-- The parser does not end where this number of items is left.
def Parser.Evades (left : Nat) (p : Parser α) : Prop :=
  ∀ ⦃s a t⦄, p s = .ok a t → t.items.length ≠ left

theorem Parser.Evades.after {p : Parser α} {f : α → Parser β} (hf : ∀ a, Evades left (f a)) :
    Evades left (p >>= f) := by
  intro s b u h
  obtain ⟨a, t, -, hb⟩ := bind_eq_ok_iff.mp h
  exact hf a hb

theorem Parser.Evades.andThen {p : Parser α} {f : α → Parser β} (hp : Evades left p)
    (hf : ∀ a s b t, f a s = .ok b t → t = s) : Evades left (p >>= f) := by
  intro s b u h
  obtain ⟨a, t, ha, hb⟩ := bind_eq_ok_iff.mp h
  rw [hf a t b u hb]
  exact hp ha

variable (h : Evades left parts.statement)
include h

theorem evades_controlled : Evades left (controlled parts) := by
  apply h.andThen
  rintro (_ | made) s b t hb <;> cases hb <;> rfl

theorem evades_clause (start : Option Location) : Evades left (clause parts start) := by
  apply Evades.after
  intro e
  apply (evades_controlled h).andThen
  rintro body s b t ⟨⟩
  rfl

theorem evades_whileLoop (start : Option Location) : Evades left (whileLoop parts start) := by
  apply Evades.after
  intro e
  apply (evades_controlled h).andThen
  rintro body s b t ⟨⟩
  rfl

theorem evades_clauseAfterElse : Evades left (clauseAfterElse parts) := by
  apply Evades.after
  intro start
  apply Evades.after
  intro isIf
  cases isIf with
  | true =>
      apply (evades_clause h start).andThen
      rintro clause s b t ⟨⟩
      rfl
  | false =>
      apply (evades_controlled h).andThen
      rintro body s b t ⟨⟩
      rfl

theorem evades_or_eq_nextClause {s t : Stream} {x : Clause ⊕ Option Stmt}
    (hx : nextClause parts s = .ok x t) : t.items.length ≠ left ∨ t = s := by
  obtain ⟨start, s₁, hstart, hx⟩ := bind_eq_ok_iff.mp hx
  cases hstart
  obtain ⟨isElseif, s₂, helseif, hx⟩ := bind_eq_ok_iff.mp hx
  cases isElseif with
  | true =>
      obtain ⟨clause, u, hclause, hx⟩ := bind_eq_ok_iff.mp hx
      cases hx
      exact .inl (evades_clause h _ hclause)
  | false =>
      have hs₂ := eq_of_skip_false helseif
      obtain ⟨isElse, s₃, helse, hx⟩ := bind_eq_ok_iff.mp hx
      cases isElse with
      | true => exact .inl (evades_clauseAfterElse h hx)
      | false =>
          have hs₃ := eq_of_skip_false helse
          cases hx
          exact .inr (hs₃.trans hs₂)

-- By induction on the rounds, each of which reads a clause or leaves what is there.
theorem evades_rounds {fuel : Nat} {clauses : List Clause} {s t : Stream}
    {read : List Clause × Option Stmt} (hs : s.items.length ≠ left)
    (hrounds : rounds (anotherClause parts) fuel clauses s = .ok read t) :
    t.items.length ≠ left := by
  induction fuel generalizing clauses s with
  | zero => cases hrounds
  | succ fuel ih =>
      have hstep := congrFun (anotherClause_eq parts) clauses
      rw [rounds_succ, hstep, bind_assoc] at hrounds
      obtain ⟨x, u, hx, hrounds⟩ := bind_eq_ok_iff.mp hrounds
      have hu : u.items.length ≠ left := by
        rcases evades_or_eq_nextClause h hx with hu | rfl
        · exact hu
        · exact hs
      cases x with
      | inl clause => exact ih hu hrounds
      | inr final =>
          cases hrounds
          exact hu

theorem evades_conditional (start : Option Location) : Evades left (conditional parts start) := by
  intro s made t hmade
  obtain ⟨first, u, hfirst, hmade⟩ := bind_eq_ok_iff.mp hmade
  obtain ⟨read, v, hread, hmade⟩ := bind_eq_ok_iff.mp hmade
  cases hmade
  exact evades_rounds h (evades_clause h start hfirst) hread

end Avoiding

section Closing

variable {α β σ : Type} {parts : Parts}

-- The last item that the parser takes is a right brace.
def Parser.EndsInBrace (p : Parser α) : Prop :=
  ∀ ⦃s a t⦄, p s = .ok a t → ∃ front brace, s.items = front ++ brace :: t.items ∧
    brace.token? = some (.symbol .braceRight)

theorem Parser.EndsInBrace.after {p : Parser α} {f : α → Parser β}
    [hp : Moves (fun s t => t.items <:+ s.items) p] (hf : ∀ a, EndsInBrace (f a)) :
    EndsInBrace (p >>= f) := by
  intro s b u h
  obtain ⟨a, t, ha, hb⟩ := bind_eq_ok_iff.mp h
  obtain ⟨taken, htaken⟩ := hp.suffix_of_ok ha
  obtain ⟨front, brace, hitems, hbrace⟩ := hf a hb
  refine ⟨taken ++ front, brace, ?_, hbrace⟩
  rw [← htaken, hitems, List.append_assoc]

theorem Parser.EndsInBrace.andThen {p : Parser α} {f : α → Parser β} (hp : EndsInBrace p)
    (hf : ∀ a s b t, f a s = .ok b t → t = s) : EndsInBrace (p >>= f) := by
  intro s b u h
  obtain ⟨a, t, ha, hb⟩ := bind_eq_ok_iff.mp h
  rw [hf a t b u hb]
  exact hp ha

-- The loop goes on until it finds one.
theorem endsInBrace_gather {next : Parser (Option (Option α))}
    [hmoves : Moves (fun s t => t.items <:+ s.items) next]
    (hnext : ∀ ⦃s t⦄, next s = .ok none t → ∃ brace, s.items = brace :: t.items ∧
      brace.token? = some (.symbol .braceRight)) (made : List α) :
    EndsInBrace (iterate (fun made => next >>= fun x => pure (gather made x)) made) := by
  have hrounds (fuel : Nat) (made : List α) :
      EndsInBrace (rounds (fun made => next >>= fun x => pure (gather made x)) fuel made) := by
    induction fuel generalizing made with
    | zero => rintro s a t ⟨⟩
    | succ fuel ih =>
        intro s a t h
        rw [rounds_succ, bind_assoc] at h
        obtain ⟨x, u, hx, h⟩ := bind_eq_ok_iff.mp h
        cases x with
        | none =>
            cases h
            obtain ⟨brace, hitems, hbrace⟩ := hnext hx
            exact ⟨[], brace, hitems, hbrace⟩
        | some read =>
            obtain ⟨taken, htaken⟩ := hmoves.suffix_of_ok hx
            obtain ⟨front, brace, hitems, hbrace⟩ := ih (read.toList ++ made) h
            refine ⟨taken ++ front, brace, ?_, hbrace⟩
            rw [← htaken, hitems, List.append_assoc]
  exact fun s _ _ h => hrounds (s.items.length + 1) made h

variable [Parts.Moves (fun s t => t.items <:+ s.items) parts]

theorem endsInBrace_block (start : Location) : EndsInBrace (block parts start) := by
  have hloop : EndsInBrace (iterate (anotherStatement parts) []) := by
    rw [anotherStatement_eq]
    apply endsInBrace_gather
    intro s t h
    obtain ⟨isClosed, u, hclosed, h⟩ := bind_eq_ok_iff.mp h
    cases isClosed with
    | true =>
        cases h
        obtain ⟨brace, rest, hs, hbrace, rfl⟩ := exists_of_skip_true hclosed
        exact ⟨brace, congrArg Stream.items hs, hbrace⟩
    | false =>
        obtain ⟨now, v, hnow, h⟩ := bind_eq_ok_iff.mp h
        cases hnow
        by_cases hempty : u.items.isEmpty
        · simp only [hempty, if_true] at h
          cases h
        · simp only [hempty, Bool.false_eq_true, if_false] at h
          obtain ⟨made, w, -, h⟩ := bind_eq_ok_iff.mp h
          cases h
  apply hloop.andThen
  rintro made s b t ⟨⟩
  rfl

theorem endsInBrace_blockStatement :
    EndsInBrace (do return some (Stmt.block (← block parts (← last)))) := by
  apply EndsInBrace.after
  intro start
  apply (endsInBrace_block start).andThen
  rintro made s b t ⟨⟩
  rfl

theorem endsInBrace_functionDeclaration (doc : Option DocComment) (start : Option Location) :
    EndsInBrace (functionDeclaration parts doc start) := by
  apply EndsInBrace.after
  intro signature
  have hbody : EndsInBrace (body parts .functionBody) :=
    EndsInBrace.after fun _ => EndsInBrace.after fun start => endsInBrace_block start
  apply hbody.andThen
  rintro made s b t ⟨⟩
  rfl

theorem endsInBrace_classDeclaration (doc : Option DocComment) (start : Option Location) :
    EndsInBrace (classDeclaration parts doc start) := by
  have hmethods : EndsInBrace (classMethods parts) := by
    have hloop : EndsInBrace (iterate (anotherMember parts) []) := by
      rw [anotherMember_eq]
      apply endsInBrace_gather
      intro s t h
      obtain ⟨isClosed, u, hclosed, h⟩ := bind_eq_ok_iff.mp h
      cases isClosed with
      | true =>
          cases h
          obtain ⟨brace, rest, hs, hbrace, rfl⟩ := exists_of_skip_true hclosed
          exact ⟨brace, congrArg Stream.items hs, hbrace⟩
      | false =>
          obtain ⟨made, w, -, h⟩ := bind_eq_ok_iff.mp h
          cases h
    exact hloop
  have hrest : ∀ name parent modifiers, EndsInBrace (do
      let methods ← classMethods parts
      return Stmt.classDecl ⟨name, parent, modifiers, doc⟩ methods (← spanFrom start)) := by
    intro name parent modifiers
    apply hmethods.andThen
    rintro made s b t ⟨⟩
    rfl
  exact EndsInBrace.after fun modifiers => EndsInBrace.after fun _ => EndsInBrace.after fun name =>
    EndsInBrace.after fun parent => EndsInBrace.after fun _ => EndsInBrace.after fun _ =>
      hrest name parent modifiers

end Closing

section Ending

variable {α β : Type} {seam : Seam} {front : List Item}

-- Where the semicolon ends the statement itself and none of those in it, the closing tag does
-- so as well.
def Parser.EndsAt (seam : Seam) (e : α → β) (front : List Item) (p q : Parser α) : Prop :=
  ∀ ⦃last docs a t⦄, p ⟨front ++ seam.ended, last, docs, []⟩ = .ok a t →
    q ⟨front ++ seam.ended, last, docs, []⟩ = .ok a t → t.errors = [] →
      t.items.length = seam.rest.length →
        ∃ b u, p ⟨front ++ seam.closed, last, docs, []⟩ = .ok b u ∧
          seam.Joined e seam.Beyond a t b u

theorem Parser.Terminated.endsAt {p q : Parser Stmt} (hp : Terminated seam p) :
    EndsAt seam Stmt.placeless front p q := by
  intro last docs a t ha _ ht hlength
  exact hp.ends ha ht hlength

theorem Parser.Evades.endsAt {e : α → β} {p q : Parser α} (hq : Evades seam.rest.length q) :
    EndsAt seam e front p q := by
  intro last docs a t _ hother _ hlength
  exact absurd hlength (hq hother)

-- The semicolon is no right brace.
theorem Parser.EndsInBrace.endsAt {e : α → β} {p q : Parser α} (hp : EndsInBrace p) :
    EndsAt seam e front p q := by
  intro last docs a t ha _ _ hlength
  obtain ⟨before, brace, hitems, hbrace⟩ := hp ha
  have hsame : front ++ seam.semicolon :: seam.rest = before ++ brace :: t.items := hitems
  obtain ⟨-, hitem⟩ := List.append_inj' hsame (by rw [List.length_cons, List.length_cons, hlength])
  obtain ⟨hitem, -⟩ := List.cons.inj hitem
  rw [← hitem, seam.isSemicolon] at hbrace
  cases hbrace

theorem Parser.EndsAt.some {e : α → β} {p q : Parser α} (hp : EndsAt seam e front p q) :
    EndsAt seam (Option.map e) front (do return some (← p)) (do return some (← q)) := by
  intro last docs a t ha hother ht hlength
  obtain ⟨made, u, hmade, ha⟩ := bind_eq_ok_iff.mp ha
  obtain ⟨another, v, hanother, hother⟩ := bind_eq_ok_iff.mp hother
  cases ha
  cases hother
  obtain ⟨b, w, hb, hsame, hbeyond⟩ := hp hmade hanother ht hlength
  exact ⟨Option.some b, w, bind_of_ok hb, fun hfollows => congrArg Option.some (hsame hfollows),
    hbeyond⟩

theorem Parser.EndsAt.advance {e : α → β} {p q : Parser α} (hp : EndsAt seam e front p q)
    (item : Item) : EndsAt seam e (item :: front) (do advance; p) (do advance; q) :=
  fun _ _ _ _ ha hother ht hlength => hp ha hother ht hlength

theorem Parser.EndsAt.documented {e : α → β} {f g : Option DocComment → Parser α} {item : Item}
    (h : ∀ doc, EndsAt seam e (item :: front) (f doc) (g doc)) :
    EndsAt seam e (item :: front) (takeDoc >>= f) (takeDoc >>= g) :=
  fun _ docs _ _ ha hother ht hlength =>
    h (docs.get? item.location.start) ha hother ht hlength

-- Another item is all that is taken, so that the semicolon is left.
theorem endsAt_of_taken {e : α → β} {item : Item} {p q : Parser α} (made : α)
    (hp : ∀ rest last docs errors,
      p ⟨item :: rest, last, docs, errors⟩ = .ok made ⟨rest, item.location, docs, errors⟩) :
    EndsAt seam e (item :: front) p q := by
  intro last docs a t ha _ _ hlength
  obtain ⟨-, rfl⟩ := EStateM.Result.ok.inj ((hp (front ++ seam.ended) last docs []).symm.trans ha)
  rw [List.length_append, Seam.length_ended] at hlength
  omega

theorem endsAt_looks {e : α → β} {item : Item}
    {f g : Option Location → Option Token → Parser α}
    (h : EndsAt seam e (item :: front) (f (some item.location) item.token?)
      (g (some item.location) item.token?)) :
    EndsAt seam e (item :: front) (do f (← location?) (← peek?))
      (do g (← location?) (← peek?)) :=
  fun _ _ _ _ ha hother ht hlength => h ha hother ht hlength

theorem exists_of_not_follows {items : List Item} (h : ¬Follows items) :
    ∃ item rest, items = item :: rest ∧
      (item.token? = some (.keyword .Elseif) ∨ item.token? = some (.keyword .Else)) := by
  cases items with
  | nil =>
      exfalso
      apply h
      rintro _ ⟨⟩
  | cons item rest =>
      refine ⟨item, rest, rfl, ?_⟩
      by_contra hneither
      rw [not_or] at hneither
      apply h
      rintro _ ⟨⟩
      exact hneither

-- An alternative is no operand.
theorem climb_of_not_follows (nested : Nested) (some : List Level) {items : List Item}
    (hitems : ¬Follows items) (last : Location) (docs : Docs) (errors : List SyntaxError) (e : Expr)
    (t : Stream) : climb nested some ⟨items, last, docs, errors⟩ ≠ .ok e t := by
  induction some generalizing e t with
  | nil =>
      obtain ⟨item, rest, rfl, hitem⟩ := exists_of_not_follows hitems
      intro he
      rcases hitem with hitem | hitem
      all_goals
        rw [eq_of_token? hitem] at he
        cases he
  | cons level tighter ih =>
      intro he
      cases level with
      | assignments =>
          obtain ⟨target, u, htarget, -⟩ := bind_eq_ok_iff.mp he
          exact ih target u htarget
      | operators table =>
          obtain ⟨first, u, hfirst, -⟩ := bind_eq_ok_iff.mp he
          exact ih first u hfirst

theorem exists_statement_eq {parts : Parts} {items : List Item} (hitems : ¬Follows items)
    (last : Location) (docs : Docs) (errors : List SyntaxError) :
    ∃ start, statement parts ⟨items, last, docs, errors⟩ =
      (do return some (← expressionStatement parts start)) ⟨items, last, docs, errors⟩ := by
  obtain ⟨item, rest, rfl, hitem⟩ := exists_of_not_follows hitems
  refine ⟨some item.location, ?_⟩
  rcases hitem with hitem | hitem
  all_goals
    rw [eq_of_token? hitem]
    rfl

theorem statementAt_refuses {items : List Item} (hitems : ¬Follows items) (depth : Nat)
    {last : Location} {docs : Docs} {errors : List SyntaxError} {made : Option Stmt} {t : Stream} :
    statementAt depth ⟨items, last, docs, errors⟩ ≠ .ok made t := by
  intro hmade
  cases depth with
  | zero => cases hmade
  | succ depth =>
      obtain ⟨start, hstart⟩ := exists_statement_eq hitems last docs errors
      rw [statementAt, hstart] at hmade
      obtain ⟨read, u, hread, -⟩ := bind_eq_ok_iff.mp hmade
      obtain ⟨e, v, he, -⟩ := bind_eq_ok_iff.mp hread
      cases depth with
      | zero => cases he
      | succ depth => exact climb_of_not_follows _ _ hitems last docs errors e v he

variable {parts other : Parts} [Parts.Moves (fun s t => s.errors <:+ t.errors) parts]
  [Parts.Moves (fun s t => t.items <:+ s.items) parts]

-- One case for each word that a statement can start with.
theorem endsAt_statement (h : parts.Lockstep seam other)
    (hevades : Evades seam.rest.length other.statement) :
    EndsAt seam (Option.map Stmt.placeless) front (statement parts) (statement other) := by
  cases front with
  | nil =>
      intro last docs a t ha _ _ _
      rw [List.nil_append, Seam.ended, statement_of_passed (.inr (.inr seam.isSemicolon))] at ha
      cases ha
      refine ⟨none, ⟨seam.opening :: seam.rest, seam.closing.location, docs, []⟩, ?_, fun _ => rfl,
        .opened (fun _ => ⟨_, rfl⟩) _⟩
      exact statement_of_passed (.inl seam.isClosing) _ last docs []
  | cons item front =>
      refine endsAt_looks ?_
      generalize item.token? = token?
      split
      case h_1 | h_2 | h_3 => exact endsAt_of_taken none fun _ _ _ _ => rfl
      case h_4 => exact endsAt_of_taken (some (.html item.location)) fun _ _ _ _ => rfl
      case h_5 => exact (terminated_echo h.expression _).endsAt.some.advance item
      case h_6 => exact (terminated_returned h.expression _).endsAt.some.advance item
      case h_7 => exact (evades_conditional hevades _).endsAt.some.advance item
      case h_8 => exact (evades_whileLoop hevades _).endsAt.some.advance item
      case h_9 => exact endsInBrace_blockStatement.endsAt.advance item
      case h_10 => exact (terminated_constantDeclaration h.expression _).endsAt.some.advance item
      case h_11 =>
        exact EndsAt.documented fun doc =>
          (endsInBrace_functionDeclaration doc _).endsAt.some.advance item
      case h_12 | h_13 | h_14 =>
        exact EndsAt.documented fun doc => (endsInBrace_classDeclaration doc _).endsAt.some
      case h_15 => exact (terminated_expressionStatement h.expression _).endsAt.some

end Ending

section Afresh

variable {α : Type} {parts : Parts}

-- Where the parser succeeds it does not matter what has been taken before.
def Parser.Afresh (p : Parser α) : Prop :=
  ∀ ⦃item rest last docs errors a t⦄, p ⟨item :: rest, last, docs, errors⟩ = .ok a t →
    ∀ place, p ⟨item :: rest, place, docs, errors⟩ = .ok a t

theorem afresh_of_onset {p : Parser α} (h : ∀ item, Onset item p fun _ => False) : Afresh p := by
  intro item rest last docs errors a t ha place
  rcases h item rest docs errors with ⟨outcome, hsame⟩ | ⟨_, _, _, hfalse, _⟩
  · rw [hsame place, ← hsame last]
    exact ha
  · exact hfalse.elim

theorem afresh_advance {p : Parser α} : Afresh (do advance; p) :=
  fun _ _ _ _ _ _ _ ha _ => ha

theorem afresh_documented {f : Option DocComment → Parser α} (hf : ∀ doc, Afresh (f doc)) :
    Afresh (takeDoc >>= f) :=
  fun item _ _ docs _ _ _ ha place => hf (docs.get? item.location.start) ha place

theorem afresh_looks {f : Option Location → Option Token → Parser α}
    (hf : ∀ start token?, Afresh (f start token?)) : Afresh (do f (← location?) (← peek?)) :=
  fun item _ _ _ _ _ _ ha place => hf (some item.location) item.token? ha place

-- A statement takes an item first, unless it starts with an expression.
theorem afresh_statement (h : ∀ s e t, parts.expression s ≠ .ok e t) :
    Afresh (statement parts) := by
  refine afresh_looks fun start token? => ?_
  split
  case h_11 => exact afresh_documented fun doc => afresh_advance
  case h_12 | h_13 | h_14 =>
    exact afresh_documented fun doc =>
      afresh_of_onset fun item => (onset_classDeclaration doc start).andThen
  case h_15 =>
    intro item rest last docs errors a t ha
    obtain ⟨made, u, hmade, -⟩ := bind_eq_ok_iff.mp ha
    obtain ⟨e, v, he, -⟩ := bind_eq_ok_iff.mp hmade
    exact absurd he (h _ _ _)
  all_goals exact afresh_advance

theorem afresh_statementAt (depth : Nat) : Afresh (statementAt depth) := by
  match depth with
  | 0 => rintro _ _ _ _ _ _ _ ⟨⟩
  | 1 =>
      apply afresh_statement
      rintro s e t ⟨⟩
  | depth + 2 => exact afresh_of_onset fun _ => onset_statementAt depth

end Afresh

end PhpLint.Syntax
