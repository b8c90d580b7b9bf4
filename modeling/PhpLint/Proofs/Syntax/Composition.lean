import PhpLint.Proofs.Syntax.Regions
import PhpLint.Proofs.Syntax.Unseen

namespace PhpLint

namespace Syntax

open EStateM (bind_eq_ok_iff bind_of_error bind_of_ok)
open PhpLint.Syntax.Parser

-- Nothing that would be taken as an alternative of a conditional in front of it.
def Follows (items : List Item) : Prop :=
  ∀ item ∈ items.head?, item.token? ≠ some (.keyword .Elseif) ∧ item.token? ≠ some (.keyword .Else)

-- A parser that succeeds on a stream does the same where more follows.
def Parser.SteadyAt {α : Type} (s : Stream) (p : Parser α) : Prop :=
  ∀ ⦃a t⦄, p s = .ok a t → ∀ ⦃more⦄, Follows more → p (s.extend more) = .ok a (t.extend more)

def Parser.Steady {α : Type} (p : Parser α) : Prop :=
  ∀ s, SteadyAt s p

-- It cannot succeed at the end of the items.
structure Parser.Closes {α : Type} (p : Parser α) : Prop where
  steady : Steady p
  ne_nil : ∀ ⦃s a t⦄, p s = .ok a t → s.items ≠ []

instance : Motion fun s t => t.items <:+ s.items where
  missing _ _ _ _ _ := List.suffix_rfl

namespace Parser

section Rules

variable {α β σ : Type} {p : Parser α} {f : α → Parser β}

theorem Steady.bind (hp : Steady p) (hf : ∀ a, Steady (f a)) : Steady (p >>= f) := by
  intro s b u h more hmore
  obtain ⟨a, t, hpt, hfu⟩ := bind_eq_ok_iff.mp h
  rw [bind_of_ok (hp s hpt hmore)]
  exact hf a t hfu hmore

theorem steady_pure (a : α) : Steady (pure a : Parser α) := by
  rintro s _ _ ⟨⟩ more _
  rfl

theorem steady_throw (error : SyntaxError) : Steady (throw error : Parser α) := by
  rintro s _ _ ⟨⟩

theorem steady_last : Steady last := by
  rintro s _ _ ⟨⟩ more _
  rfl

theorem steady_spanFrom (start : Option Location) : Steady (spanFrom start) :=
  steady_last.bind fun _ => steady_pure _

theorem Closes.andThen (hp : Closes p) (hf : ∀ a, Steady (f a)) : Closes (p >>= f) where
  steady := hp.steady.bind hf
  ne_nil s _ _ h := by
    obtain ⟨a, t, hpt, -⟩ := bind_eq_ok_iff.mp h
    exact hp.ne_nil hpt

-- What comes before cannot be at the end, whatever it looks at.
theorem Closes.after [hp : Moves (fun s t => t.items <:+ s.items) p] (hf : ∀ a, Closes (f a)) :
    Closes (p >>= f) where
  steady s b u h more hmore := by
    obtain ⟨a, t, hpt, hfu⟩ := bind_eq_ok_iff.mp h
    rw [bind_of_ok (hp.ahead hpt ((hf a).ne_nil hfu) more)]
    exact (hf a).steady t hfu hmore
  ne_nil s b u h hnil := by
    obtain ⟨a, t, hpt, hfu⟩ := bind_eq_ok_iff.mp h
    have hsuffix := hp.suffix_of_ok hpt
    rw [hnil, List.suffix_nil] at hsuffix
    exact (hf a).ne_nil hfu hsuffix

theorem Closes.ofFront (hnil : ∀ last docs errors a t, p ⟨[], last, docs, errors⟩ ≠ .ok a t)
    (hcons : ∀ item rest last docs errors, SteadyAt ⟨item :: rest, last, docs, errors⟩ p) :
    Closes p where
  steady := by
    rintro ⟨_ | ⟨item, rest⟩, last, docs, errors⟩ a t h
    · exact absurd h (hnil last docs errors a t)
    · exact hcons item rest last docs errors h
  ne_nil := by
    rintro ⟨_ | ⟨item, rest⟩, last, docs, errors⟩ a t h
    · exact absurd h (hnil last docs errors a t)
    · exact List.cons_ne_nil item rest

-- What is seen in front stays there.
theorem steadyAt_look {item : Item} {rest : List Item} {last : Location} {docs : Docs}
    {errors : List SyntaxError} {a : α}
    (hp : ∀ rest, p ⟨item :: rest, last, docs, errors⟩ = .ok a ⟨item :: rest, last, docs, errors⟩)
    (hf : SteadyAt ⟨item :: rest, last, docs, errors⟩ (f a)) :
    SteadyAt ⟨item :: rest, last, docs, errors⟩ (p >>= f) := by
  intro b t h more hmore
  rw [bind_of_ok (hp rest)] at h
  rw [Stream.extend_mk, List.cons_append, bind_of_ok (hp (rest ++ more))]
  exact hf h hmore

theorem steadyAt_advance {f : Unit → Parser β} {item : Item} {rest : List Item} {last : Location}
    {docs : Docs} {errors : List SyntaxError} (hf : Steady (f ())) :
    SteadyAt ⟨item :: rest, last, docs, errors⟩ (advance >>= f) :=
  hf ⟨rest, item.location, docs, errors⟩

theorem steadyAt_takeDoc {f : Option DocComment → Parser β} {item : Item} {rest : List Item}
    {last : Location} {docs : Docs} {errors : List SyntaxError}
    (hf : SteadyAt ⟨item :: rest, last, docs.remove item.location.start, errors⟩
      (f (docs.get? item.location.start))) :
    SteadyAt ⟨item :: rest, last, docs, errors⟩ (takeDoc >>= f) :=
  hf

theorem steadyAt_skip {token : Token} {f : Bool → Parser β} {item : Item} {rest : List Item}
    {last : Location} {docs : Docs} {errors : List SyntaxError}
    (htrue : item.token? = some token → SteadyAt ⟨rest, item.location, docs, errors⟩ (f true))
    (hfalse : item.token? ≠ some token → SteadyAt ⟨item :: rest, last, docs, errors⟩ (f false)) :
    SteadyAt ⟨item :: rest, last, docs, errors⟩ (skip token >>= f) := by
  intro a t h more hmore
  by_cases htoken : item.token? = some token
  · rw [bind_of_ok (skip_of_eq htoken rest last docs errors)] at h
    rw [Stream.extend_mk, List.cons_append, bind_of_ok (skip_of_eq htoken _ last docs errors)]
    exact htrue htoken h hmore
  · rw [bind_of_ok (skip_of_ne htoken rest last docs errors)] at h
    rw [Stream.extend_mk, List.cons_append, bind_of_ok (skip_of_ne htoken _ last docs errors)]
    exact hfalse htoken h hmore

theorem steady_iterate {step : σ → Parser (σ ⊕ α)} (hstep : ∀ state, Steady (step state))
    (start : σ) : Steady (Parser.iterate step start) := by
  have hrounds (fuel : Nat) : ∀ state, Steady (rounds step fuel state) := by
    induction fuel with
    | zero => exact fun _ => steady_last.bind fun _ => steady_throw _
    | succ fuel ih =>
        refine fun state => (hstep state).bind fun result => ?_
        cases result with
        | inl state => exact ih state
        | inr result => exact steady_pure result
  intro s a t h more hmore
  have hle : s.items.length + 1 ≤ (s.extend more).items.length + 1 := by
    simp [Stream.extend]
  exact Moves.rounds_mono hle (hrounds _ start s h hmore)

-- A loop that ends by taking a brace. Every round before the last one leaves an item.
theorem closes_iterate (step : σ → Parser (σ ⊕ α)) {next : σ → Parser (σ ⊕ α)}
    [hmoves : ∀ state, Moves (fun s t => t.items <:+ s.items) (step state)] (result : σ → α)
    (hstep : ∀ state, step state = do
      if ← skip (.symbol .braceRight) then return .inr (result state) else next state)
    (hnext : ∀ state s outcome t, next state s = .ok outcome t →
      s.items ≠ [] ∧ ∃ later, outcome = .inl later) (start : σ) :
    Closes (Parser.iterate step start) := by
  have hne (state : σ) {s outcome t} (h : step state s = .ok outcome t) : s.items ≠ [] := by
    rintro hnil
    obtain ⟨items, last, docs, errors⟩ := s
    cases hnil
    rw [hstep] at h
    exact (hnext state _ outcome t h).1 rfl
  have hlast (state : σ) {s a t} (h : step state s = .ok (.inr a) t) (more : List Item) :
      step state (s.extend more) = .ok (.inr a) (t.extend more) := by
    obtain ⟨items, last, docs, errors⟩ := s
    obtain ⟨item, rest, rfl⟩ := List.exists_cons_of_ne_nil (hne state h)
    rw [hstep] at h ⊢
    by_cases htoken : item.token? = some (.symbol .braceRight)
    · rw [bind_of_ok (skip_of_eq htoken rest last docs errors)] at h
      rw [Stream.extend_mk, List.cons_append, bind_of_ok (skip_of_eq htoken _ last docs errors)]
      cases h
      rfl
    · rw [bind_of_ok (skip_of_ne htoken rest last docs errors)] at h
      obtain ⟨-, later, hinl⟩ := hnext state _ _ _ h
      cases hinl
  have hrounds (fuel : Nat) : ∀ state, Closes (rounds step fuel state) := by
    induction fuel with
    | zero => exact fun _ => ⟨steady_last.bind fun _ => steady_throw _, by rintro _ _ _ ⟨⟩⟩
    | succ fuel ih =>
        refine fun state => ⟨fun s a u h more hmore => ?_, fun s a u h => ?_⟩
        · obtain ⟨outcome, t, hst, htu⟩ := bind_eq_ok_iff.mp h
          rw [rounds]
          cases outcome with
          | inl later =>
              rw [bind_of_ok ((hmoves state).ahead hst ((ih later).ne_nil htu) more)]
              exact (ih later).steady t htu hmore
          | inr result =>
              cases htu
              rw [bind_of_ok (hlast state hst more)]
              rfl
        · obtain ⟨outcome, t, hst, -⟩ := bind_eq_ok_iff.mp h
          exact hne state hst
  refine ⟨fun s a t h more hmore => ?_, fun s a t h => (hrounds _ start).ne_nil h⟩
  have hle : s.items.length + 1 ≤ (s.extend more).items.length + 1 := by
    simp [Stream.extend]
  exact Moves.rounds_mono hle ((hrounds _ start).steady s h hmore)

theorem closes_take (expected : Expectation) : Closes (take expected) := by
  refine .ofFront (by rintro _ _ _ _ _ ⟨⟩) ?_
  rintro ⟨content, location⟩ rest last docs errors
  cases content <;> rintro _ _ ⟨⟩ more _
  rfl

theorem closes_expect (token : Token) (expected : Expectation) :
    Closes (expect token expected) := by
  apply (closes_take expected).andThen
  rintro ⟨found, location⟩
  dsimp only
  split
  · exact steady_throw _
  · exact steady_pure ()

theorem closes_expectSymbol (symbol : Symbol) (expected : Expectation) :
    Closes (expectSymbol symbol expected) :=
  closes_expect _ _

end Rules

end Parser

theorem closes_terminator : Closes terminator := by
  refine .ofFront (by rintro _ _ _ _ _ ⟨⟩) fun item rest last docs errors => ?_
  have hnext (rest : List Item) : isNext .closeTag ⟨item :: rest, last, docs, errors⟩ =
      .ok (item.token? == some .closeTag) ⟨item :: rest, last, docs, errors⟩ := rfl
  intro a t h more hmore
  rw [terminator, bind_of_ok (hnext rest)] at h
  rw [terminator, Stream.extend_mk, List.cons_append, bind_of_ok (hnext (rest ++ more))]
  cases htoken : item.token? == some .closeTag with
  | true =>
      rw [htoken] at h
      cases h
      rfl
  | false =>
      rw [htoken] at h
      exact (closes_expectSymbol .semicolon .semicolon).steady _ h hmore

section Statements

variable {parts : Parts}

structure Parts.Closes (parts : Parts) : Prop where
  expression : ∀ ⦃s e t⦄, parts.expression s = .ok e t → s.items ≠ []
  statement : Parser.Closes parts.statement

theorem closes_controlled (hp : parts.Closes) : Closes (controlled parts) := by
  refine hp.statement.andThen fun statement => ?_
  cases statement with
  | some statement => exact steady_pure _
  | none => exact steady_last.bind fun _ => steady_pure _

theorem Parser.Closes.spanned {α β : Type} {p : Parser α} {f : α → Location → β} (hp : Closes p)
    (start : Option Location) : Closes (do let a ← p; return f a (← spanFrom start)) :=
  hp.andThen fun _ => (steady_spanFrom start).bind fun _ => steady_pure _

theorem classMember_nil (last : Location) (docs : Docs) (errors : List SyntaxError) :
    classMember parts ⟨[], last, docs, errors⟩ =
      .error (.endOfFile .classMember last) ⟨[], last, docs, errors⟩ :=
  rfl

variable [Parts.Moves (fun s t => t.items <:+ s.items) parts]

theorem closes_echo (start : Option Location) : Closes (echo parts start) :=
  .after fun _ => .after fun _ => closes_terminator.spanned start

theorem closes_returned (start : Option Location) : Closes (returned parts start) := by
  refine .after fun isSemicolon => .after fun isCloseTag => ?_
  cases isSemicolon || isCloseTag <;> exact .after fun _ => closes_terminator.spanned start

theorem closes_clause (hp : parts.Closes) (start : Option Location) : Closes (clause parts start) :=
  .after fun _ => (closes_controlled hp).andThen fun _ => steady_pure _

-- Where the items end there is no alternative, nor is one in what follows.
theorem steady_alternatives (hp : parts.Closes) : Steady (alternatives parts) := by
  refine steady_iterate (fun clauses => ?_) []
  rintro ⟨_ | ⟨item, rest⟩, last, docs, errors⟩
  · rintro _ _ ⟨⟩ more hmore
    cases more with
    | nil => rfl
    | cons item rest =>
        obtain ⟨helseif, helse⟩ := hmore item rfl
        change (skip (.keyword .Elseif) >>= _) ⟨item :: rest, last, docs, errors⟩ = _
        rw [bind_of_ok (skip_of_ne helseif rest last docs errors)]
        change (skip (.keyword .Else) >>= _) ⟨item :: rest, last, docs, errors⟩ = _
        rw [bind_of_ok (skip_of_ne helse rest last docs errors)]
        rfl
  · have hclause (start : Option Location) : Closes (do
        return Sum.inl (β := List Clause × Option Stmt) ((← clause parts start) :: clauses)) :=
      (closes_clause hp start).andThen fun _ => steady_pure _
    refine steadyAt_skip (fun _ => (hclause (some item.location)).steady _) fun _ => ?_
    refine steadyAt_skip (fun _ => Closes.steady ?_ _) fun _ => steady_pure _ _
    refine .after fun start => .after fun isIf => ?_
    cases isIf with
    | true => exact hclause start
    | false => exact (closes_controlled hp).andThen fun _ => steady_pure _

theorem closes_conditional (hp : parts.Closes) (start : Option Location) :
    Closes (conditional parts start) := by
  refine (closes_clause hp start).andThen fun first => (steady_alternatives hp).bind fun read => ?_
  exact steady_last.bind fun _ => steady_pure _

theorem closes_whileLoop (hp : parts.Closes) (start : Option Location) :
    Closes (whileLoop parts start) :=
  .after fun _ => (closes_controlled hp).spanned start

theorem closes_block (start : Location) : Closes (block parts start) := by
  refine Closes.andThen ?_ fun _ => steady_last.bind fun _ => steady_pure _
  refine closes_iterate (anotherStatement parts) List.reverse (fun _ => rfl) ?_ []
  rintro statements ⟨_ | ⟨item, rest⟩, last, docs, errors⟩ outcome t h
  · cases h
  · refine ⟨List.cons_ne_nil item rest, ?_⟩
    obtain ⟨statement, u, -, h⟩ := bind_eq_ok_iff (x := parts.statement).mp h
    cases statement <;> cases h <;> exact ⟨_, rfl⟩

theorem closes_constantDeclaration (start : Option Location) :
    Closes (constantDeclaration parts start) :=
  .after fun _ => .after fun _ => .after fun _ => closes_terminator.spanned start

theorem closes_body (expected : Expectation) : Closes (body parts expected) :=
  .after fun _ => .after fun start => closes_block start

theorem closes_functionDeclaration (doc : Option DocComment) (start : Option Location) :
    Closes (functionDeclaration parts doc start) :=
  .after fun _ => (closes_body _).spanned start

theorem closes_classMethods : Closes (classMethods parts) := by
  refine closes_iterate (anotherMember parts) List.reverse (fun _ => rfl) ?_ []
  rintro methods s outcome t h
  obtain ⟨method, u, hmember, h⟩ := bind_eq_ok_iff.mp h
  constructor
  · rintro hnil
    obtain ⟨items, last, docs, errors⟩ := s
    cases hnil
    rw [classMember_nil] at hmember
    cases hmember
  · cases method <;> cases h <;> exact ⟨_, rfl⟩

theorem closes_classDeclaration (doc : Option DocComment) (start : Option Location) :
    Closes (classDeclaration parts doc start) :=
  .after fun _ => .after fun _ => .after fun _ => .after fun _ => .after fun _ => .after fun _ =>
    closes_classMethods.spanned start

theorem closes_expressionStatement (start : Option Location) :
    Closes (expressionStatement parts start) :=
  .after fun _ => closes_terminator.spanned start

theorem closes_statement (hp : parts.Closes) : Closes (statement parts) := by
  refine .ofFront (fun last docs errors a t h => ?_) fun item rest last docs errors => ?_
  · obtain ⟨statement, u, hstatement, -⟩ :=
      bind_eq_ok_iff (x := expressionStatement parts none).mp h
    obtain ⟨e, v, hexpression, -⟩ := bind_eq_ok_iff.mp hstatement
    exact hp.expression hexpression rfl
  · refine steadyAt_look (fun _ => rfl) (steadyAt_look (fun _ => rfl) ?_)
    have hsome {p : Parser Stmt} (h : Closes p) : Steady (do return some (← p)) :=
      (h.andThen fun _ => steady_pure _).steady
    split
    · exact steadyAt_advance (steady_pure none)
    · exact steadyAt_advance (steady_pure none)
    · exact steadyAt_advance (steady_pure none)
    · exact steadyAt_advance (steady_last.bind fun _ => steady_pure _)
    · exact steadyAt_advance (hsome (closes_echo _))
    · exact steadyAt_advance (hsome (closes_returned _))
    · exact steadyAt_advance (hsome (closes_conditional hp _))
    · exact steadyAt_advance (hsome (closes_whileLoop hp _))
    · exact steadyAt_advance (steady_last.bind fun start =>
        ((closes_block start).andThen fun _ => steady_pure _).steady)
    · exact steadyAt_advance (hsome (closes_constantDeclaration _))
    · exact steadyAt_takeDoc (steadyAt_advance (hsome (closes_functionDeclaration _ _)))
    · exact steadyAt_takeDoc (hsome (closes_classDeclaration _ _) _)
    · exact steadyAt_takeDoc (hsome (closes_classDeclaration _ _) _)
    · exact steadyAt_takeDoc (hsome (closes_classDeclaration _ _) _)
    · exact hsome (closes_expressionStatement _) _

end Statements

theorem climb_nil (nested : Nested) (levels : List Level) (last : Location) (docs : Docs)
    (errors : List SyntaxError) :
    climb nested levels ⟨[], last, docs, errors⟩ =
      .error (.endOfFile .expression last) ⟨[], last, docs, errors⟩ := by
  induction levels with
  | nil => rfl
  | cons level tighter ih =>
      cases level with
      | assignments => exact bind_of_error ih
      | operators table => exact bind_of_error ih

theorem expression_ne_nil (depth : Nat) {s t : Stream} {e : Expr}
    (h : (nestedAt depth).expression s = .ok e t) : s.items ≠ [] := by
  intro hnil
  obtain ⟨items, last, docs, errors⟩ := s
  cases hnil
  cases depth with
  | zero => cases h
  | succ depth =>
      have hfails := climb_nil (nestedAt depth) levels last docs errors
      cases hfails.symm.trans h

theorem closes_statementAt (depth : Nat) : Closes (statementAt depth) := by
  induction depth with
  | zero => exact ⟨steady_last.bind fun _ => steady_throw _, by rintro _ _ _ ⟨⟩⟩
  | succ depth ih =>
      have hparts : Parts.Moves (fun s t => t.items <:+ s.items)
          ⟨(nestedAt depth).expression, statementAt depth⟩ := ⟨inferInstance, inferInstance⟩
      exact closes_statement ⟨fun _ _ _ => expression_ne_nil depth, ih⟩

section Program

variable {more : Nat} {items : List Item} {docs : Docs} (hmore : items.length ≤ more)
include hmore

-- Behind the first part the items are read as on their own, with the comments on them.
theorem program_extend_nil (rounds : Nat) {s : Stream} (hnil : s.items = [])
    (herrors : s.errors = [])
    (hdocs : ∀ item ∈ items, s.docs.get? item.location.start = docs.get? item.location.start) :
    program (rounds + more) (s.extend items) =
      ((program rounds s).1 ++ (program more ⟨items, s.last, docs, []⟩).1,
        (program more ⟨items, s.last, docs, []⟩).2) := by
  obtain ⟨_, last, others, _⟩ := s
  cases hnil
  cases herrors
  have hdone : program rounds ⟨[], last, others, []⟩ = ([], []) := program_of_nil rfl
  have hrounds : program (rounds + more) ⟨items, last, others, []⟩ =
      program more ⟨items, last, others, []⟩ :=
    program_rounds (Nat.le_add_left_of_le hmore) hmore
  have hresembles : Stream.Resembles [] ⟨items, last, docs, []⟩ ⟨items, last, others, []⟩ :=
    ⟨hdocs⟩
  rw [hdone, Stream.extend_mk, List.nil_append, List.nil_append, hrounds,
    program_of_resembles more hresembles]
  rfl

-- By induction on the statements of the first part. Each of them takes what it took alone,
-- and no comment on an item of the second part.
theorem program_extend (hfollows : Follows items) {rounds : Nat} {s : Stream}
    (hrounds : s.items.length ≤ rounds)
    (hdocs : ∀ item ∈ items, s.docs.get? item.location.start = docs.get? item.location.start)
    (hapart : ∀ item ∈ s.items, ∀ other ∈ items, item.location.start ≠ other.location.start)
    (h : (program rounds s).2 = []) :
    program (rounds + more) (s.extend items) =
      ((program rounds s).1 ++ (program more ⟨items, s.last, docs, []⟩).1,
        (program more ⟨items, s.last, docs, []⟩).2) := by
  induction rounds generalizing s with
  | zero =>
      have hnil : s.items = [] := List.length_eq_zero_iff.mp (Nat.le_zero.mp hrounds)
      exact program_extend_nil hmore 0 hnil (errors_eq_nil h) hdocs
  | succ rounds ih =>
      by_cases hitems : s.items = []
      · exact program_extend_nil hmore (rounds + 1) hitems (errors_eq_nil h) hdocs
      · obtain ⟨statement, t, hs, herrors⟩ := exists_ok_of_errors_eq_nil hitems h
        have hkeeps := Moves.keeps (R := Stream.KeepsOthers) (p := statementAt maxDepth) s
        rw [EStateM.after_of_ok hs] at hkeeps
        have hapart' : ∀ item ∈ t.items, ∀ other ∈ items,
            item.location.start ≠ other.location.start :=
          fun item hitem => hapart item (hkeeps.1.subset hitem)
        have hdocs' : ∀ item ∈ items,
            t.docs.get? item.location.start = docs.get? item.location.start := by
          intro item hitem
          rw [hkeeps.2 _ fun other hother => hapart other hother item hitem, hdocs item hitem]
        have ht := length_of_ok hitems hs
        have hextend := (closes_statementAt maxDepth).steady s hs hfollows
        have hitems' : (s.extend items).items ≠ [] := by simp [Stream.extend, hitems]
        have hrest := ih (s := t) (by omega) hdocs' hapart' herrors
        rw [Nat.add_right_comm, program_of_ok hitems' hextend, program_of_ok hitems hs, hrest,
          program_last more items s.last t.last, List.append_assoc]

end Program

end Syntax

def Lexeme.isDoc (lexeme : Lexeme) : Bool :=
  match lexeme.content with
  | .ok (.docComment _) => true
  | _ => false

-- Whether it goes on with a conditional that stands in front of it.
def Lexeme.isAlternative (lexeme : Lexeme) : Bool :=
  match lexeme.content with
  | .ok (.keyword .Else) | .ok (.keyword .Elseif) => true
  | _ => false

namespace Syntax

theorem isDoc_eq_isSome (lexeme : Lexeme) : lexeme.isDoc = lexeme.doc?.isSome := by
  obtain ⟨content, location⟩ := lexeme
  unfold Lexeme.isDoc Lexeme.doc?
  split <;> simp_all

theorem doc?_eq_none {lexeme : Lexeme} (h : lexeme.isDoc = false) : lexeme.doc? = none := by
  rwa [isDoc_eq_isSome, Option.isSome_eq_false_iff, Option.isNone_iff_eq_none] at h

theorem exists_doc?_eq {lexeme : Lexeme} (h : lexeme.isDoc) : ∃ doc, lexeme.doc? = some doc := by
  rwa [isDoc_eq_isSome, Option.isSome_iff_exists] at h

theorem itemsOf_cons_of_isDoc {lexeme : Lexeme} (h : lexeme.isDoc) (rest : List Lexeme) :
    itemsOf (lexeme :: rest) = itemsOf rest := by
  obtain ⟨doc, hdoc⟩ := exists_doc?_eq h
  simp [itemsOf, hdoc]

theorem itemsOf_cons {lexeme : Lexeme} (h : lexeme.isDoc = false) (rest : List Lexeme) :
    itemsOf (lexeme :: rest) = lexeme :: itemsOf rest := by
  simp [itemsOf, doc?_eq_none h]

theorem itemsOf_append (first second : List Lexeme) :
    itemsOf (first ++ second) = itemsOf first ++ itemsOf second :=
  List.filter_append first second

theorem fileDocs_cons {lexeme : Lexeme} (h : lexeme.isDoc = false) (pending : Option DocComment)
    (docs : Docs) (rest : List Lexeme) :
    fileDocs pending docs (lexeme :: rest) =
      fileDocs none (pending.elim docs fun doc => docs.put lexeme.location.start doc) rest := by
  rw [fileDocs, doc?_eq_none h]

theorem exists_fileDocs_cons {lexeme : Lexeme} (h : lexeme.isDoc) :
    ∃ doc, ∀ (pending : Option DocComment) (docs : Docs) (rest : List Lexeme),
      fileDocs pending docs (lexeme :: rest) = fileDocs (some doc) docs rest := by
  obtain ⟨doc, hdoc⟩ := exists_doc?_eq h
  exact ⟨doc, fun _ _ _ => by rw [fileDocs, hdoc]⟩

theorem itemsOf_of_plain {lexemes : List Lexeme} (h : ∀ lexeme ∈ lexemes, lexeme.isDoc = false) :
    itemsOf lexemes = lexemes := by
  refine List.filter_eq_self.mpr fun lexeme hlexeme => ?_
  rw [doc?_eq_none (h lexeme hlexeme)]
  rfl

theorem fileDocs_of_plain {docs : Docs} {lexemes : List Lexeme}
    (h : ∀ lexeme ∈ lexemes, lexeme.isDoc = false) : fileDocs none docs lexemes = docs := by
  induction lexemes with
  | nil => rfl
  | cons lexeme rest ih =>
      obtain ⟨hlexeme, hrest⟩ := List.forall_mem_cons.mp h
      rw [fileDocs_cons hlexeme]
      exact ih hrest

-- A doc comment at the end of the first part would belong to the first item of the second.
theorem fileDocs_append {pending : Option DocComment} (docs : Docs) {first : List Lexeme}
    (second : List Lexeme) (hnil : first = [] → pending = none)
    (hlast : ∀ lexeme ∈ first.getLast?, lexeme.isDoc = false) :
    fileDocs pending docs (first ++ second) =
      fileDocs none (fileDocs pending docs first) second := by
  induction first generalizing pending docs with
  | nil =>
      rw [hnil rfl]
      rfl
  | cons lexeme rest ih =>
      have hrest : ∀ other ∈ rest.getLast?, other.isDoc = false := by
        intro other hother
        apply hlast other
        simp [List.getLast?_cons, Option.mem_def.mp hother]
      rw [List.cons_append]
      cases hdoc : lexeme.isDoc with
      | true =>
          obtain ⟨doc, hskip⟩ := exists_fileDocs_cons hdoc
          have hne : rest ≠ [] := by
            rintro rfl
            have hplain := hlast lexeme rfl
            simp [hdoc] at hplain
          rw [hskip, hskip]
          exact ih docs (fun h => absurd h hne) hrest
      | false =>
          rw [fileDocs_cons hdoc, fileDocs_cons hdoc]
          exact ih _ (fun _ => rfl) hrest

theorem get?_elim_put (pending : Option DocComment) (docs : Docs) (start place : Nat) :
    (pending.elim docs fun doc => docs.put start doc).get? place =
      if place = start then pending.or (docs.get? place) else docs.get? place := by
  cases pending <;> simp [Entries.get?_put]

-- What is found under a place depends on what was filed there before, and on no other place.
theorem get?_fileDocs_congr {docs others : Docs} {place : Nat}
    (h : others.get? place = docs.get? place) (pending : Option DocComment)
    (lexemes : List Lexeme) :
    (fileDocs pending others lexemes).get? place = (fileDocs pending docs lexemes).get? place := by
  induction lexemes generalizing pending docs others with
  | nil => exact h
  | cons lexeme rest ih =>
      cases hdoc : lexeme.isDoc with
      | true =>
          obtain ⟨doc, hskip⟩ := exists_fileDocs_cons hdoc
          rw [hskip, hskip]
          exact ih h (some doc)
      | false =>
          rw [fileDocs_cons hdoc, fileDocs_cons hdoc]
          refine ih ?_ none
          rw [get?_elim_put, get?_elim_put, h]

theorem get?_fileDocs_of_ne {place : Nat} {lexemes : List Lexeme}
    (h : ∀ item ∈ itemsOf lexemes, item.location.start ≠ place) (pending : Option DocComment)
    (docs : Docs) : (fileDocs pending docs lexemes).get? place = docs.get? place := by
  induction lexemes generalizing pending docs with
  | nil => rfl
  | cons lexeme rest ih =>
      cases hdoc : lexeme.isDoc with
      | true =>
          obtain ⟨doc, hskip⟩ := exists_fileDocs_cons hdoc
          rw [itemsOf_cons_of_isDoc hdoc] at h
          rw [hskip, ih h]
      | false =>
          rw [itemsOf_cons hdoc] at h
          obtain ⟨hother, hrest⟩ := List.forall_mem_cons.mp h
          rw [fileDocs_cons hdoc, ih hrest, get?_elim_put, if_neg hother.symm]

theorem content_of_token? {item : Item} {token : Token} (h : item.token? = some token) :
    item.content = .ok token := by
  obtain ⟨content, location⟩ := item
  cases content with
  | ok found => exact congrArg Except.ok (Option.some.inj h)
  | error error => cases h

theorem eq_of_token? {item : Item} {token : Token} (h : item.token? = some token) :
    item = ⟨.ok token, item.location⟩ := by
  rw [← content_of_token? h]

-- The first lexeme that is no doc comment is the first item.
theorem head?_itemsOf (lexemes : List Lexeme) :
    (itemsOf lexemes).head? = lexemes.find? (!·.isDoc) := by
  rw [itemsOf, List.head?_filter]
  congr 1
  funext lexeme
  simp [isDoc_eq_isSome]

theorem isAlternative_eq_false_iff {lexeme : Lexeme} : lexeme.isAlternative = false ↔
    lexeme.token? ≠ some (.keyword .Elseif) ∧ lexeme.token? ≠ some (.keyword .Else) := by
  constructor
  · intro h
    constructor <;> intro htoken <;>
      simp [Lexeme.isAlternative, content_of_token? htoken] at h
  · rintro ⟨helseif, helse⟩
    unfold Lexeme.isAlternative
    split
    case h_1 hcontent => exact absurd (by rw [Lexeme.token?, hcontent]; rfl) helse
    case h_2 hcontent => exact absurd (by rw [Lexeme.token?, hcontent]; rfl) helseif
    case h_3 => rfl

theorem follows_itemsOf_iff {lexemes : List Lexeme} : Follows (itemsOf lexemes) ↔
    ∀ lexeme ∈ lexemes.find? (!·.isDoc), lexeme.isAlternative = false := by
  simp only [Follows, head?_itemsOf, isAlternative_eq_false_iff]

end Syntax

open Syntax

-- Parsing is compositional: no production looks past its own end, and nothing carries over
-- from one statement to the next. Comments are filed by the places of the items, so that
-- those of the two parts must differ.
theorem parse_append {first second : List Lexeme} (hfirst : (parse first).2 = [])
    (hlast : ∀ lexeme ∈ first.getLast?, lexeme.isDoc = false)
    (hsecond : ∀ lexeme ∈ second.find? (!·.isDoc), lexeme.isAlternative = false)
    (hapart : ∀ item ∈ itemsOf first, ∀ other ∈ itemsOf second,
      item.location.start ≠ other.location.start) :
    parse (first ++ second) = ((parse first).1 ++ (parse second).1, (parse second).2) := by
  let last := (Stream.ofLexemes first).last
  let docs := fileDocs none (fileDocs none [] first) second
  have halone : program (itemsOf first).length ⟨itemsOf first, last, docs, []⟩ = parse first := by
    have hresembles : Stream.Resembles [] ⟨itemsOf first, last, fileDocs none [] first, []⟩
        ⟨itemsOf first, last, docs, []⟩ :=
      ⟨fun item hitem =>
        get?_fileDocs_of_ne (fun other hother => (hapart item hitem other hother).symm) none _⟩
    rw [program_of_resembles _ hresembles, parse_eq first last]
    rfl
  have hdocs : ∀ item ∈ itemsOf second,
      docs.get? item.location.start = (fileDocs none [] second).get? item.location.start := by
    intro item hitem
    refine get?_fileDocs_congr ?_ none second
    exact get?_fileDocs_of_ne (fun other hother => hapart other hother item hitem) none []
  have hextend := program_extend (Nat.le_refl (itemsOf second).length)
    (follows_itemsOf_iff.mpr hsecond) (s := ⟨itemsOf first, last, docs, []⟩) (Nat.le_refl _) hdocs
    hapart (by rw [halone, hfirst])
  rw [halone, Stream.extend_mk] at hextend
  rw [parse_eq _ last, itemsOf_append, fileDocs_append [] second (fun _ => rfl) hlast,
    List.length_append, hextend, ← parse_eq second last]

-- The second part starts with the declaration of a function that is cut off.
theorem parse_append_unfinished :
    let lexemes := lex "<?php if (1) ; /** d */ function f($a = ) { return 1 }" "a.php"
    let first := lexemes.take 6
    let second := lexemes.drop 6
    (parse second).2 ≠ [] ∧
      parse (first ++ second) = ((parse first).1 ++ (parse second).1, (parse second).2) := by
  intro lexemes first second
  have herrors : (parse second).2 ≠ [] := by decide +kernel
  exact ⟨herrors, parse_append (by decide +kernel) (by decide +kernel) (by decide +kernel)
    (by decide +kernel)⟩

-- A doc comment does not keep an alternative from the conditional in front of it, so that
-- the first lexeme of the second part is not enough to tell. In the second example the word
-- function starts where echo does, and so it is given the comment on that word.
theorem parse_append_ne :
    (let lexemes := lex "<?php if (1) ; /** d */ else ;" "a.php"
      let first := lexemes.take 6
      let second := lexemes.drop 6
      (parse first).2 = [] ∧ (∀ lexeme ∈ first.getLast?, lexeme.isDoc = false) ∧
        (∀ lexeme ∈ second.head?, lexeme.isAlternative = false) ∧
        parse (first ++ second) ≠ ((parse first).1 ++ (parse second).1, (parse second).2)) ∧
    (let first := lex "<?php /** d */ echo 1;" "a.php"
      let second := lex "<?php          function f() \x7b\x7d" "a.php"
      (parse first).2 = [] ∧ (∀ lexeme ∈ first.getLast?, lexeme.isDoc = false) ∧
        (∀ lexeme ∈ second.find? (!·.isDoc), lexeme.isAlternative = false) ∧
        parse (first ++ second) ≠ ((parse first).1 ++ (parse second).1, (parse second).2)) := by
  constructor
  · intro lexemes first second
    have herrors : (parse (first ++ second)).2 ≠ (parse second).2 := by decide +kernel
    refine ⟨by decide +kernel, by decide +kernel, by decide +kernel, fun h => herrors ?_⟩
    rw [h]
  · intro first second
    have hdocs : (parse (first ++ second)).1.map (fun s => (Region.stmt s).doc?) ≠
        ((parse first).1 ++ (parse second).1).map fun s => (Region.stmt s).doc? := by
      decide +kernel
    refine ⟨by decide +kernel, by decide +kernel, by decide +kernel, fun h => hdocs ?_⟩
    rw [h]

end PhpLint
