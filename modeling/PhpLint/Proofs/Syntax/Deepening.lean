import PhpLint.Proofs.Syntax.Nesting
import PhpLint.Proofs.Syntax.Reading

namespace PhpLint

namespace Syntax

open PhpLint.Syntax.Parser

-- The second parser does what the first one does, unless that ends too deep.
class Parser.Agrees {α : Type} (p q : Parser α) : Prop where
  eq_or_tooDeep : ∀ s, p s = q s ∨ TooDeep (p s)

namespace Parser.Agrees

variable {α β σ : Type}

instance (p : Parser α) : Agrees p p :=
  ⟨fun _ => .inl rfl⟩

theorem tooDeep (q : Parser α) : Agrees Parser.tooDeep q :=
  ⟨fun s => .inr ⟨s.last, s, rfl⟩⟩

theorem bind_of {p q : Parser α} {f g : α → Parser β} (hp : Agrees p q)
    (hf : ∀ a, Agrees (f a) (g a)) : Agrees (p >>= f) (q >>= g) := by
  refine ⟨fun s => ?_⟩
  rcases hp.eq_or_tooDeep s with heq | hdeep
  · simp only [Bind.bind, EStateM.bind, ← heq]
    cases p s with
    | ok a t => exact (hf a).eq_or_tooDeep t
    | error e t => exact .inl rfl
  · exact .inr (bind_tooDeep hdeep)

theorem bind {p q : Parser α} {f g : α → Parser β} [hp : Agrees p q]
    (hf : ∀ a, Agrees (f a) (g a)) : Agrees (p >>= f) (q >>= g) :=
  bind_of hp hf

instance (p q : Parser α) (f g : α → Parser β) [Agrees p q] [hf : ∀ a, Agrees (f a) (g a)] :
    Agrees (p >>= f) (q >>= g) :=
  bind hf

instance (f : α → β) (p q : Parser α) [Agrees p q] : Agrees (f <$> p) (f <$> q) := by
  rw [map_eq_pure_bind, map_eq_pure_bind]
  infer_instance

instance (c : Prop) [Decidable c] (p p' q q' : Parser α) [hp : Agrees p q] [hp' : Agrees p' q'] :
    Agrees (if c then p else p') (if c then q else q') := by
  split <;> assumption

-- By induction on the rounds that are left. Both have as many.
theorem rounds {step other : σ → Parser (σ ⊕ α)}
    (hstep : ∀ state, Agrees (step state) (other state)) (fuel : Nat) (state : σ) :
    Agrees (Parser.rounds step fuel state) (Parser.rounds other fuel state) := by
  induction fuel generalizing state with
  | zero =>
      rw [Parser.rounds, Parser.rounds]
      infer_instance
  | succ fuel ih =>
      rw [Parser.rounds, Parser.rounds]
      refine bind fun result => ?_
      cases result with
      | inl state => exact ih state
      | inr result => infer_instance

theorem iterate {step other : σ → Parser (σ ⊕ α)} {start : σ}
    (hstep : ∀ state, Agrees (step state) (other state)) :
    Agrees (Parser.iterate step start) (Parser.iterate other start) :=
  bind fun _ => rounds hstep _ start

instance (step other : σ → Parser (σ ⊕ α)) [hstep : ∀ state, Agrees (step state) (other state)]
    (start : σ) : Agrees (Parser.iterate step start) (Parser.iterate other start) :=
  iterate hstep

instance (closing : Symbol) (thing other : Parser α) [Agrees thing other] (things : List α) :
    Agrees (anotherThing closing thing things) (anotherThing closing other things) := by
  unfold anotherThing
  infer_instance

instance (closing : Symbol) (thing other : Parser α) [Agrees thing other] :
    Agrees (separated closing thing) (separated closing other) := by
  unfold separated
  infer_instance

end Parser.Agrees

section Expressions

open Parser.Agrees (bind)

variable {nested deeper : Nested}

class Nested.Agrees (nested deeper : Nested) : Prop where
  expression : Parser.Agrees nested.expression deeper.expression
  operand : Parser.Agrees nested.operand deeper.operand
  assigned : Parser.Agrees nested.assigned deeper.assigned

attribute [instance] Nested.Agrees.expression Nested.Agrees.operand Nested.Agrees.assigned

variable [Nested.Agrees nested deeper]

instance : Agrees (arguments nested) (arguments deeper) := by
  unfold arguments
  infer_instance

instance : Agrees (arrayItem nested) (arrayItem deeper) := by
  unfold arrayItem
  infer_instance

instance (closing : Symbol) : Agrees (arrayItems nested closing) (arrayItems deeper closing) := by
  unfold arrayItems
  infer_instance

instance (name : Identifier) : Agrees (restOfName nested name) (restOfName deeper name) := by
  unfold restOfName
  infer_instance

instance (start : Location) : Agrees (newObject nested start) (newObject deeper start) := by
  unfold newObject
  infer_instance

instance (found : Token × Location) : Agrees (operandOf nested found) (operandOf deeper found) := by
  obtain ⟨token, location⟩ := found
  cases token with
  | symbol symbol =>
      cases symbol with
      | parenLeft => exact bind fun _ => inferInstance
      | bracketLeft => exact bind fun _ => inferInstance
      | _ => exact inferInstanceAs (Agrees (throw _) (throw _))
  | keyword keyword =>
      cases keyword with
      | New => exact inferInstanceAs (Agrees (newObject _ _) (newObject _ _))
      | Static => exact inferInstanceAs (Agrees (restOfName _ _) (restOfName _ _))
      | _ => exact inferInstanceAs (Agrees (throw _) (throw _))
  | identifier name =>
      rw [operandOf_identifier, operandOf_identifier]
      infer_instance
  | string text interpolated =>
      cases interpolated <;> exact inferInstanceAs (Agrees (pure _) (pure _))
  | var | int | float | bool | null => exact inferInstanceAs (Agrees (pure _) (pure _))
  | _ => exact inferInstanceAs (Agrees (throw _) (throw _))

instance : Agrees (primary nested) (primary deeper) := by
  refine bind fun missing => ?_
  cases missing <;> infer_instance

instance (object : Expr) : Agrees (member nested object) (member deeper object) := by
  unfold member
  infer_instance

instance (container : Expr) : Agrees (subscript nested container) (subscript deeper container) := by
  unfold subscript
  infer_instance

instance (object : Expr) : Agrees (access? nested object) (access? deeper object) := by
  unfold access?
  infer_instance

instance : Agrees (accesses nested) (accesses deeper) := by
  refine bind fun first => Agrees.iterate fun (object, height) => bind fun result => ?_
  cases result <;> infer_instance

instance : Agrees (power nested) (power deeper) := by
  unfold power
  infer_instance

instance : Agrees (unary nested) (unary deeper) := by
  refine bind fun token? => ?_
  split
  · infer_instance
  · split <;> infer_instance

instance (table : List (Token × BinaryOp)) (operand other : Parser Expr) [Agrees operand other] :
    Agrees (operation table operand) (operation table other) := by
  refine bind fun first => Agrees.iterate fun left => bind fun token? => ?_
  split <;> infer_instance

instance (operand other : Parser Expr) [Agrees operand other] :
    Agrees (assignment nested operand) (assignment deeper other) := by
  refine bind fun target => bind fun token? => ?_
  split <;> infer_instance

instance (levels : List Level) : Agrees (climb nested levels) (climb deeper levels) := by
  induction levels with
  | nil => exact inferInstanceAs (Agrees (unary nested) (unary deeper))
  | cons level tighter ih =>
      cases level with
      | assignments => exact inferInstanceAs (Agrees (assignment nested _) (assignment deeper _))
      | operators table => exact inferInstanceAs (Agrees (operation table _) (operation table _))

omit [Nested.Agrees nested deeper] in
theorem agrees_nestedAt {depth deeper : Nat} (h : depth ≤ deeper) :
    Nested.Agrees (nestedAt depth) (nestedAt deeper) := by
  induction depth generalizing deeper with
  | zero => exact ⟨.tooDeep _, .tooDeep _, .tooDeep _⟩
  | succ depth ih =>
      obtain ⟨deeper, rfl⟩ := Nat.exists_eq_add_one_of_ne_zero (Nat.ne_zero_of_lt h)
      have hnested := ih (Nat.le_of_succ_le_succ h)
      constructor
      · exact inferInstanceAs (Agrees (climb _ _) (climb _ _))
      · exact inferInstanceAs (Agrees (unary _) (unary _))
      · exact inferInstanceAs (Agrees (climb _ _) (climb _ _))

end Expressions

section Statements

open Parser.Agrees (bind bind_of)

variable {parts deeper : Parts}

class Parts.Agrees (parts deeper : Parts) : Prop where
  expression : Parser.Agrees parts.expression deeper.expression
  statement : Parser.Agrees parts.statement deeper.statement

attribute [instance] Parts.Agrees.expression Parts.Agrees.statement

variable [Parts.Agrees parts deeper]

instance : Agrees (condition parts) (condition deeper) := by
  unfold condition
  infer_instance

instance : Agrees (controlled parts) (controlled deeper) := by
  refine bind fun statement => ?_
  cases statement <;> infer_instance

instance (expressions : List Expr) :
    Agrees (anotherExpression parts expressions) (anotherExpression deeper expressions) := by
  unfold anotherExpression
  infer_instance

instance (start : Option Location) : Agrees (echo parts start) (echo deeper start) := by
  unfold echo
  infer_instance

instance (start : Option Location) (isEmpty : Bool) :
    Agrees (returnedWith parts start isEmpty) (returnedWith deeper start isEmpty) := by
  unfold returnedWith
  infer_instance

instance (start : Option Location) : Agrees (returned parts start) (returned deeper start) := by
  unfold returned
  infer_instance

instance (start : Option Location) : Agrees (clause parts start) (clause deeper start) := by
  unfold clause
  infer_instance

instance : Agrees (alternatives parts) (alternatives deeper) := by
  refine Agrees.iterate fun clauses => bind fun start => bind fun isElseif => ?_
  cases isElseif <;> infer_instance

instance (start : Option Location) :
    Agrees (conditional parts start) (conditional deeper start) := by
  unfold conditional
  infer_instance

instance (start : Option Location) : Agrees (whileLoop parts start) (whileLoop deeper start) := by
  unfold whileLoop
  infer_instance

instance (start : Location) : Agrees (block parts start) (block deeper start) := by
  refine bind_of (Agrees.iterate fun statements => bind fun isClosed => ?_) fun _ => inferInstance
  cases isClosed with
  | true => exact inferInstanceAs (Agrees (pure _) (pure _))
  | false =>
      refine bind fun s => ?_
      split
      · refine bind fun _ => bind fun _ => bind fun statement => ?_
        cases statement <;> infer_instance
      · refine bind fun statement => ?_
        cases statement <;> infer_instance

instance (start : Option Location) :
    Agrees (constantDeclaration parts start) (constantDeclaration deeper start) := by
  unfold constantDeclaration
  infer_instance

instance : Agrees (parameter parts) (parameter deeper) := by
  refine bind fun start => bind fun _ => bind fun _ => bind fun found => ?_
  split <;> infer_instance

instance : Agrees (parameters parts) (parameters deeper) := by
  unfold parameters
  infer_instance

instance (doc : Option DocComment) (expected : Expectation) :
    Agrees (signature parts doc expected) (signature deeper doc expected) := by
  unfold signature
  infer_instance

instance (expected : Expectation) : Agrees (body parts expected) (body deeper expected) := by
  unfold body
  infer_instance

instance (doc : Option DocComment) (start : Option Location) :
    Agrees (functionDeclaration parts doc start) (functionDeclaration deeper doc start) := by
  unfold functionDeclaration
  infer_instance

instance (doc : Option DocComment) (modifiers : List Modifier) (start : Option Location) :
    Agrees (method parts doc modifiers start) (method deeper doc modifiers start) := by
  unfold method
  infer_instance

instance (start : Option Location) (doc : Option DocComment) :
    Agrees (memberFrom parts start doc) (memberFrom deeper start doc) := by
  unfold memberFrom
  infer_instance

instance : Agrees (classMember parts) (classMember deeper) := by
  unfold classMember
  infer_instance

instance : Agrees (classMethods parts) (classMethods deeper) := by
  refine Agrees.iterate fun methods => bind fun isClosed => ?_
  cases isClosed with
  | true => exact inferInstanceAs (Agrees (pure _) (pure _))
  | false =>
      refine bind fun method => ?_
      cases method <;> infer_instance

instance (doc : Option DocComment) (start : Option Location) :
    Agrees (classDeclaration parts doc start) (classDeclaration deeper doc start) := by
  unfold classDeclaration
  infer_instance

instance (start : Option Location) :
    Agrees (expressionStatement parts start) (expressionStatement deeper start) := by
  unfold expressionStatement
  infer_instance

instance : Agrees (statement parts) (statement deeper) := by
  refine bind fun start => bind fun token? => ?_
  split <;> infer_instance

omit [Parts.Agrees parts deeper] in
theorem agrees_statementAt {depth deeper : Nat} (h : depth ≤ deeper) :
    Agrees (statementAt depth) (statementAt deeper) := by
  induction depth generalizing deeper with
  | zero => exact .tooDeep _
  | succ depth ih =>
      obtain ⟨deeper, rfl⟩ := Nat.exists_eq_add_one_of_ne_zero (Nat.ne_zero_of_lt h)
      have hle : depth ≤ deeper := Nat.le_of_succ_le_succ h
      have hnested := agrees_nestedAt hle
      have hparts : Parts.Agrees ⟨(nestedAt depth).expression, statementAt depth⟩
          ⟨(nestedAt deeper).expression, statementAt deeper⟩ :=
        ⟨hnested.expression, ih hle⟩
      exact inferInstanceAs (Agrees (statement _) (statement _))

end Statements

-- The statements from the first item on when the given number of levels may be nested.
def programAt (depth : Nat) : Nat → Stream → List Stmt × List SyntaxError
  | 0, s => ([], s.errors.reverse)
  | rounds + 1, s =>
    match s.items with
    | [] => ([], s.errors.reverse)
    | first :: _ =>
      match statementAt depth s with
      | .ok none t => programAt depth rounds t
      | .ok (some statement) t =>
        let (statements, errors) := programAt depth rounds t
        (statement :: statements, errors)
      | .error error t =>
        let t := if t.items.length = s.items.length then t.advance else t
        let t := { t with errors := error :: t.errors }
        let (statements, errors) := programAt depth rounds t.recover
        (.invalid (first.location.cover t.last) :: statements, errors)

-- What follows a statement is the same if the statement is.
theorem programAt_succ {depth rounds : Nat} {s : Stream}
    (hstatement : statementAt maxDepth s = statementAt depth s)
    (hok : ∀ statement t, statementAt maxDepth s = .ok statement t →
      programAt depth rounds t = program rounds t)
    (herror : ∀ error t, statementAt maxDepth s = .error error t →
      programAt depth rounds (resume s t error) = program rounds (resume s t error)) :
    programAt depth (rounds + 1) s = program (rounds + 1) s := by
  rw [programAt, program, ← hstatement]
  cases hitems : s.items with
  | nil => rfl
  | cons first rest =>
      cases h : statementAt maxDepth s with
      | ok statement t =>
          have hrest := hok statement t h
          cases statement <;> simp only [hrest]
      | error error t =>
          have hrest := herror error t h
          simp only [resume, hitems] at hrest
          simp only [hrest]

theorem programAt_maxDepth (rounds : Nat) (s : Stream) :
    programAt maxDepth rounds s = program rounds s := by
  induction rounds generalizing s with
  | zero => rfl
  | succ rounds ih => exact programAt_succ rfl (fun _ t _ => ih t) fun error t _ => ih _

-- A greater limit makes a difference only where something is too deep. By induction on the
-- rounds, up to the first statement that is.
theorem programAt_eq_or_tooDeep {depth : Nat} (hdepth : maxDepth ≤ depth) (rounds : Nat)
    (s : Stream) :
    programAt depth rounds s = program rounds s ∨
      ∃ location, .tooDeep location ∈ (program rounds s).2 := by
  induction rounds generalizing s with
  | zero => exact .inl rfl
  | succ rounds ih =>
      by_cases hitems : s.items = []
      · left
        simp only [programAt, program, hitems]
      · rcases (agrees_statementAt hdepth).eq_or_tooDeep s with hsame | ⟨location, t, hdeep⟩
        · cases h : statementAt maxDepth s with
          | ok statement t =>
              rcases ih t with hrest | hdeep
              · exact .inl (programAt_succ hsame (by simpa [h] using hrest) (by simp [h]))
              · right
                rw [program_of_ok hitems h]
                exact hdeep
          | error error t =>
              rcases ih (resume s t error) with hrest | hdeep
              · exact .inl (programAt_succ hsame (by simp [h]) (by simpa [h] using hrest))
              · right
                rw [program_of_error hitems h]
                exact hdeep
        · exact .inr ⟨location, mem_errors_program hitems hdeep⟩

end Syntax

open Syntax

-- The whole program under another limit. With `maxDepth` it is `parse`.
def parseAt (depth : Nat) (lexemes : List Lexeme) : List Stmt × List SyntaxError :=
  let s := Stream.ofLexemes lexemes
  programAt depth s.items.length s

theorem parseAt_maxDepth (lexemes : List Lexeme) : parseAt maxDepth lexemes = parse lexemes :=
  programAt_maxDepth _ _

-- The levels of a statement are limited, and what would have more of them is reported. But
-- a condition that is the alternative of another one does not take a level of its own. So
-- only where there is none the statements on every path are limited too.
theorem statement_levels_limited (lexemes : List Lexeme) :
    (∀ s ∈ (parse lexemes).1, s.levels ≤ maxDepth ∧
      ((∀ part ∈ s.parts, part.isChained = false) → s.nesting ≤ maxDepth)) ∧
    ((∃ location, .tooDeep location ∈ (parse lexemes).2) ∨
      ∀ depth ≥ maxDepth, parseAt depth lexemes = parse lexemes) := by
  constructor
  · intro s hs
    have hwithin : s.Within (fun _ _ => True) maxDepth :=
      within_parse (fun _ _ _ _ _ => trivial) lexemes s hs
    refine ⟨hwithin.levels_le, fun hunchained => ?_⟩
    have hsame : s.nesting = s.levels := s.depth_eq_of_unchained 1 0 hunchained
    rw [hsame]
    exact hwithin.levels_le
  · by_cases hdeep : ∃ location, .tooDeep location ∈ (parse lexemes).2
    · exact .inl hdeep
    · right
      intro depth hdepth
      exact (programAt_eq_or_tooDeep hdepth _ _).resolve_right hdeep

-- Conditions in a row, each the alternative of the one in front of it, and nothing else.
def chainLexemes (alternatives : Nat) : List Lexeme :=
  let rest : List Token :=
    [.symbol .parenLeft, .int 1, .symbol .parenRight, .symbol .semicolon]
  (.keyword .If :: rest ++ (List.replicate alternatives (.keyword .Elseif :: rest)).flatten).map
    fun token => ⟨.ok token, default⟩

theorem chain_nests_too_deep :
    (parse (chainLexemes maxDepth)).2 = [] ∧
      ∃ s ∈ (parse (chainLexemes maxDepth)).1, maxDepth < s.nesting := by
  have herrors : (parse (chainLexemes maxDepth)).2 = [] := by decide +kernel
  have hnesting : (parse (chainLexemes maxDepth)).1.any fun s => maxDepth < s.nesting := by
    decide +kernel
  obtain ⟨s, hs, hdeep⟩ := List.any_eq_true.mp hnesting
  exact ⟨herrors, s, hs, of_decide_eq_true hdeep⟩

end PhpLint
