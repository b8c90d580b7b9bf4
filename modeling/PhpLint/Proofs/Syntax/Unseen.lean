import PhpLint.Proofs.Syntax.Onset

namespace PhpLint.Syntax

open EStateM (bind_of_error bind_of_ok)
open PhpLint.Syntax.Parser

-- The same stream to every parser: other comments may be filed under places where no item
-- starts that is left, and other errors may have been reported before.
inductive Stream.Resembles (earlier : List SyntaxError) : Stream → Stream → Prop where
  | mk {items : List Item} {last : Location} {docs others : Docs} {errors : List SyntaxError} :
      (∀ item ∈ items, others.get? item.location.start = docs.get? item.location.start) →
      Resembles earlier ⟨items, last, docs, errors⟩ ⟨items, last, others, errors ++ earlier⟩

inductive ResultResembles {α : Type} (earlier : List SyntaxError) :
    EStateM.Result SyntaxError Stream α → EStateM.Result SyntaxError Stream α → Prop where
  | ok (a : α) {t t' : Stream} :
      t.Resembles earlier t' → ResultResembles earlier (.ok a t) (.ok a t')
  | error (e : SyntaxError) {t t' : Stream} :
      t.Resembles earlier t' → ResultResembles earlier (.error e t) (.error e t')

-- What was reported before a parser starts makes no difference to it, nor do comments on
-- items that are not there.
class Parser.Ignores {α : Type} (p : Parser α) : Prop where
  resembles : ∀ ⦃earlier s s'⦄, s.Resembles earlier s' → ResultResembles earlier (p s) (p s')

namespace Parser.Ignores

variable {α β σ : Type}

theorem look {f : Stream → α} (h : ∀ ⦃earlier s s'⦄, s.Resembles earlier s' → f s' = f s) :
    Ignores (do return f (← get)) where
  resembles earlier s s' hs := by
    change ResultResembles earlier (.ok (f s) s) (.ok (f s') s')
    rw [h hs]
    exact .ok (f s) hs

instance (a : α) : Ignores (pure a : Parser α) :=
  look fun _ _ _ _ => rfl

instance (error : SyntaxError) : Ignores (throw error : Parser α) :=
  ⟨fun _ _ _ hs => .error error hs⟩

theorem bind_of {p : Parser α} {f : α → Parser β} (hp : Ignores p) (hf : ∀ a, Ignores (f a)) :
    Ignores (p >>= f) where
  resembles earlier s s' hs := by
    have hresult := hp.resembles hs
    cases h : p s with
    | ok a t =>
        cases h' : p s' with
        | ok a' t' =>
            rw [h, h'] at hresult
            cases hresult with
            | ok _ ht =>
                rw [bind_of_ok h, bind_of_ok h']
                exact (hf a).resembles ht
        | error e t' =>
            rw [h, h'] at hresult
            cases hresult
    | error e t =>
        cases h' : p s' with
        | ok a' t' =>
            rw [h, h'] at hresult
            cases hresult
        | error e' t' =>
            rw [h, h'] at hresult
            cases hresult with
            | error _ ht =>
                rw [bind_of_error h, bind_of_error h']
                exact .error e ht

theorem bind {p : Parser α} {f : α → Parser β} [hp : Ignores p] (hf : ∀ a, Ignores (f a)) :
    Ignores (p >>= f) :=
  bind_of hp hf

instance (p : Parser α) (f : α → Parser β) [Ignores p] [hf : ∀ a, Ignores (f a)] :
    Ignores (p >>= f) :=
  bind hf

instance (f : α → β) (p : Parser α) [Ignores p] : Ignores (f <$> p) := by
  rw [map_eq_pure_bind]
  infer_instance

instance (c : Prop) [Decidable c] (p q : Parser α) [hp : Ignores p] [hq : Ignores q] :
    Ignores (if c then p else q) := by
  split <;> assumption

instance : Ignores peek? :=
  look fun _ _ _ ⟨_⟩ => rfl

instance : Ignores location? :=
  look fun _ _ _ ⟨_⟩ => rfl

instance : Ignores last :=
  look fun _ _ _ ⟨_⟩ => rfl

instance (start : Option Location) : Ignores (spanFrom start) := by
  unfold spanFrom
  infer_instance

instance : Ignores (tooDeep : Parser α) := by
  unfold tooDeep
  infer_instance

instance : Ignores advance := by
  constructor
  rintro earlier _ _ @⟨items, last, docs, others, errors, hdocs⟩
  cases items with
  | nil => exact .ok () ⟨hdocs⟩
  | cons item rest => exact .ok () ⟨(List.forall_mem_cons.mp hdocs).2⟩

-- One comment is taken from both.
instance : Ignores takeDoc := by
  constructor
  rintro earlier _ _ @⟨items, last, docs, others, errors, hdocs⟩
  cases items with
  | nil => exact .ok none ⟨hdocs⟩
  | cons item rest =>
      have hrest : ∀ other ∈ item :: rest,
          (others.remove item.location.start).get? other.location.start =
            (docs.remove item.location.start).get? other.location.start := by
        intro other hother
        rw [Entries.get?_remove, Entries.get?_remove, hdocs other hother]
      change ResultResembles earlier (.ok (docs.get? item.location.start) _)
        (.ok (others.get? item.location.start) _)
      rw [hdocs item (List.mem_cons_self ..)]
      exact .ok _ ⟨hrest⟩

instance (expected : Expectation) : Ignores (take expected) := by
  constructor
  rintro earlier _ _ @⟨items, last, docs, others, errors, hdocs⟩
  cases items with
  | nil => exact .error (.endOfFile expected last) ⟨hdocs⟩
  | cons item rest =>
      have hrest := (List.forall_mem_cons.mp hdocs).2
      obtain ⟨content, location⟩ := item
      cases content with
      | ok token => exact .ok (token, location) ⟨hrest⟩
      | error error => exact .error (.lexical error expected location) ⟨hrest⟩

instance (token : Token) (expected : Expectation) : Ignores (expect token expected) := by
  unfold expect
  infer_instance

instance (symbol : Symbol) (expected : Expectation) : Ignores (expectSymbol symbol expected) := by
  unfold expectSymbol
  infer_instance

instance (expected : Expectation) : Ignores (identifier expected) := by
  refine bind fun (found, location) => ?_
  cases found <;> infer_instance

instance (token : Token) : Ignores (isNext token) := by
  unfold isNext
  infer_instance

instance (token : Token) : Ignores (skip token) := by
  unfold skip
  infer_instance

instance (p : Token → Bool) : Ignores (skipWhile p) := by
  constructor
  rintro earlier _ _ @⟨items, last, docs, others, errors, hdocs⟩
  have hsuffix : (skipWhileIn p items last).1 <:+ items :=
    Moves.skipWhileIn (R := fun s t => t.items <:+ s.items) p items last docs errors
  exact .ok () ⟨fun item hitem => hdocs item (hsuffix.subset hitem)⟩

-- By induction on the rounds that are left.
theorem rounds {step : σ → Parser (σ ⊕ α)} (hstep : ∀ state, Ignores (step state)) (fuel : Nat)
    (state : σ) : Ignores (Parser.rounds step fuel state) := by
  induction fuel generalizing state with
  | zero =>
      rw [Parser.rounds]
      infer_instance
  | succ fuel ih =>
      rw [Parser.rounds]
      refine bind fun result => ?_
      cases result with
      | inl state => exact ih state
      | inr result => infer_instance

theorem iterate {step : σ → Parser (σ ⊕ α)} {start : σ} (hstep : ∀ state, Ignores (step state)) :
    Ignores (Parser.iterate step start) :=
  ⟨fun _ _ _ ⟨hdocs⟩ => (rounds hstep _ start).resembles ⟨hdocs⟩⟩

instance (step : σ → Parser (σ ⊕ α)) [hstep : ∀ state, Ignores (step state)] (start : σ) :
    Ignores (Parser.iterate step start) :=
  iterate hstep

instance (closing : Symbol) (thing : Parser α) [Ignores thing] (things : List α) :
    Ignores (anotherThing closing thing things) := by
  unfold anotherThing
  infer_instance

instance (closing : Symbol) (thing : Parser α) [Ignores thing] :
    Ignores (separated closing thing) := by
  unfold separated
  infer_instance

end Parser.Ignores

section Expressions

open Parser.Ignores (bind)

variable {nested : Nested}

class Nested.Ignores (nested : Nested) : Prop where
  expression : Parser.Ignores nested.expression
  operand : Parser.Ignores nested.operand
  assigned : Parser.Ignores nested.assigned

attribute [instance] Nested.Ignores.expression Nested.Ignores.operand Nested.Ignores.assigned

instance (height : Nat) : Ignores (checkHeight height) := by
  unfold checkHeight
  infer_instance

instance : Ignores ownerName := by
  unfold ownerName
  infer_instance

variable [Nested.Ignores nested]

instance : Ignores (arguments nested) := by
  unfold arguments
  infer_instance

instance : Ignores (arrayItem nested) := by
  unfold arrayItem
  infer_instance

instance (closing : Symbol) : Ignores (arrayItems nested closing) := by
  unfold arrayItems
  infer_instance

instance (name : Identifier) : Ignores (restOfName nested name) := by
  unfold restOfName
  infer_instance

instance (start : Location) : Ignores (newObject nested start) := by
  unfold newObject
  infer_instance

instance (found : Token × Location) : Ignores (operandOf nested found) := by
  obtain ⟨token, location⟩ := found
  cases token with
  | symbol symbol =>
      cases symbol with
      | parenLeft => exact bind fun _ => inferInstance
      | bracketLeft => exact bind fun _ => inferInstance
      | _ => exact inferInstanceAs (Ignores (throw _))
  | keyword keyword =>
      cases keyword with
      | New => exact inferInstanceAs (Ignores (newObject _ _))
      | Static => exact inferInstanceAs (Ignores (restOfName _ _))
      | _ => exact inferInstanceAs (Ignores (throw _))
  | identifier name =>
      rw [operandOf_identifier]
      infer_instance
  | string text interpolated => cases interpolated <;> exact inferInstanceAs (Ignores (pure _))
  | var | int | float | bool | null => exact inferInstanceAs (Ignores (pure _))
  | _ => exact inferInstanceAs (Ignores (throw _))

instance : Ignores missingOperand? := by
  constructor
  rintro earlier _ _ @⟨items, last, docs, others, errors, hdocs⟩
  cases items <;> exact .ok _ ⟨hdocs⟩

instance : Ignores (primary nested) := by
  refine bind fun missing => ?_
  cases missing with
  | some location => exact ⟨fun _ _ _ ⟨hdocs⟩ => .ok (Expr.invalid location) ⟨hdocs⟩⟩
  | none => infer_instance

instance (object : Expr) : Ignores (member nested object) := by
  unfold member
  infer_instance

instance (container : Expr) : Ignores (subscript nested container) := by
  unfold subscript
  infer_instance

instance (object : Expr) : Ignores (access? nested object) := by
  unfold access?
  infer_instance

instance : Ignores (accesses nested) := by
  refine bind fun first => Ignores.iterate fun (object, height) => bind fun result => ?_
  cases result <;> infer_instance

instance : Ignores (power nested) := by
  unfold power
  infer_instance

instance : Ignores (unary nested) := by
  refine bind fun token? => ?_
  split
  · infer_instance
  · split <;> infer_instance

instance (table : List (Token × BinaryOp)) (operand : Parser Expr) [Ignores operand] :
    Ignores (operation table operand) := by
  refine bind fun first => Ignores.iterate fun left => bind fun token? => ?_
  split <;> infer_instance

instance (operand : Parser Expr) [Ignores operand] : Ignores (assignment nested operand) := by
  refine bind fun target => bind fun token? => ?_
  split <;> infer_instance

instance (levels : List Level) : Ignores (climb nested levels) := by
  induction levels with
  | nil => exact inferInstanceAs (Ignores (unary nested))
  | cons level tighter ih =>
      cases level with
      | assignments => exact inferInstanceAs (Ignores (assignment nested _))
      | operators table => exact inferInstanceAs (Ignores (operation table _))

instance (depth : Nat) : Nested.Ignores (nestedAt depth) := by
  induction depth with
  | zero => constructor <;> exact inferInstanceAs (Ignores tooDeep)
  | succ depth ih =>
      constructor
      · exact inferInstanceAs (Ignores (climb _ _))
      · exact inferInstanceAs (Ignores (unary _))
      · exact inferInstanceAs (Ignores (climb _ _))

end Expressions

section Statements

open Parser.Ignores (bind)

variable {parts : Parts}

class Parts.Ignores (parts : Parts) : Prop where
  expression : Parser.Ignores parts.expression
  statement : Parser.Ignores parts.statement

attribute [instance] Parts.Ignores.expression Parts.Ignores.statement

instance : Ignores terminator := by
  unfold terminator
  infer_instance

instance : Ignores returnType := by
  unfold returnType
  infer_instance

instance (modifier? : Token → Option Modifier) : Ignores (modifiers modifier?) := by
  refine Ignores.iterate fun modifiers => bind fun token? => ?_
  split <;> infer_instance

instance : Ignores skipField := by
  refine Ignores.iterate fun _ => bind fun found => ?_
  split <;> infer_instance

instance : Ignores parentClass? := by
  unfold parentClass?
  infer_instance

variable [Parts.Ignores parts]

instance : Ignores (condition parts) := by
  unfold condition
  infer_instance

instance : Ignores (controlled parts) := by
  refine bind fun statement => ?_
  cases statement <;> infer_instance

instance (expressions : List Expr) : Ignores (anotherExpression parts expressions) := by
  unfold anotherExpression
  infer_instance

instance (start : Option Location) : Ignores (echo parts start) := by
  unfold echo
  infer_instance

instance (start : Option Location) (isEmpty : Bool) :
    Ignores (returnedWith parts start isEmpty) := by
  unfold returnedWith
  infer_instance

instance (start : Option Location) : Ignores (returned parts start) := by
  unfold returned
  infer_instance

instance (start : Option Location) : Ignores (clause parts start) := by
  unfold clause
  infer_instance

instance : Ignores (alternatives parts) := by
  refine Ignores.iterate fun clauses => bind fun start => bind fun isElseif => ?_
  cases isElseif <;> infer_instance

instance (start : Option Location) : Ignores (conditional parts start) := by
  unfold conditional
  infer_instance

instance (start : Option Location) : Ignores (whileLoop parts start) := by
  unfold whileLoop
  infer_instance

instance (statements : List Stmt) : Ignores (anotherStatement parts statements) := by
  refine bind fun isClosed => ?_
  cases isClosed with
  | true => exact inferInstanceAs (Ignores (pure _))
  | false =>
      constructor
      rintro earlier _ _ @⟨items, last, docs, others, errors, hdocs⟩
      cases items with
      | nil => exact .error (.endOfFile .rightBrace last) ⟨hdocs⟩
      | cons item rest =>
          refine (bind (p := parts.statement) fun made => ?_).resembles ⟨hdocs⟩
          cases made <;> infer_instance

instance (start : Location) : Ignores (block parts start) := by
  unfold block
  infer_instance

instance (start : Option Location) : Ignores (constantDeclaration parts start) := by
  unfold constantDeclaration
  infer_instance

instance : Ignores (parameter parts) := by
  refine bind fun start => bind fun _ => bind fun _ => bind fun (token, location) => ?_
  cases token <;> infer_instance

instance : Ignores (parameters parts) := by
  unfold parameters
  infer_instance

instance (doc : Option DocComment) (expected : Expectation) :
    Ignores (signature parts doc expected) := by
  unfold signature
  infer_instance

instance (expected : Expectation) : Ignores (body parts expected) := by
  unfold body
  infer_instance

instance (doc : Option DocComment) (start : Option Location) :
    Ignores (functionDeclaration parts doc start) := by
  unfold functionDeclaration
  infer_instance

instance (doc : Option DocComment) (modifiers : List Modifier) (start : Option Location) :
    Ignores (method parts doc modifiers start) := by
  unfold method
  infer_instance

instance : Ignores noMember := by
  unfold noMember
  infer_instance

instance : Ignores fieldOrNone := by
  unfold fieldOrNone
  infer_instance

instance (start : Option Location) (doc : Option DocComment) :
    Ignores (memberFrom parts start doc) := by
  unfold memberFrom
  infer_instance

instance : Ignores (classMember parts) := by
  unfold classMember
  infer_instance

instance : Ignores (classMethods parts) := by
  refine Ignores.iterate fun methods => bind fun isClosed => ?_
  cases isClosed with
  | true => exact inferInstanceAs (Ignores (pure _))
  | false =>
      refine bind fun method => ?_
      cases method <;> infer_instance

instance (doc : Option DocComment) (start : Option Location) :
    Ignores (classDeclaration parts doc start) := by
  unfold classDeclaration
  infer_instance

instance (start : Option Location) : Ignores (expressionStatement parts start) := by
  unfold expressionStatement
  infer_instance

instance : Ignores (statement parts) := by
  refine bind fun start => bind fun token? => ?_
  split <;> infer_instance

instance (depth : Nat) : Ignores (statementAt depth) := by
  induction depth with
  | zero => exact inferInstanceAs (Ignores tooDeep)
  | succ depth ih =>
      have hparts : Parts.Ignores ⟨(nestedAt depth).expression, statementAt depth⟩ :=
        ⟨inferInstance, ih⟩
      exact inferInstanceAs (Ignores (statement _))

end Statements

theorem Stream.Resembles.recover {earlier : List SyntaxError} {t t' : Stream} (e : SyntaxError)
    (h : t.Resembles earlier t') :
    Resembles earlier (Stream.recover { t with errors := e :: t.errors })
      (Stream.recover { t' with errors := e :: t'.errors }) := by
  obtain @⟨items, last, docs, others, errors, hdocs⟩ := h
  have hsuffix : (skipStatement items last).1 <:+ items :=
    moves_skipStatement (R := fun s t => t.items <:+ s.items) items last docs errors
  exact ⟨fun item hitem => hdocs item (hsuffix.subset hitem)⟩

-- By induction on the rounds. Each statement is what it is in the other stream.
theorem program_of_resembles (rounds : Nat) {earlier : List SyntaxError} {s s' : Stream}
    (h : s.Resembles earlier s') :
    program rounds s' = ((program rounds s).1, earlier.reverse ++ (program rounds s).2) := by
  induction rounds generalizing s s' with
  | zero =>
      obtain ⟨-⟩ := h
      simp [program]
  | succ rounds ih =>
      have hresult := Ignores.resembles (p := statementAt maxDepth) h
      obtain @⟨items, last, docs, others, errors, hdocs⟩ := h
      cases items with
      | nil => simp [program]
      | cons item rest =>
          have hitems : item :: rest ≠ [] := List.cons_ne_nil item rest
          cases h : statementAt maxDepth ⟨item :: rest, last, docs, errors⟩ with
          | ok made t =>
              rw [h] at hresult
              generalize h' : statementAt maxDepth _ = result at hresult
              cases hresult with
              | ok _ ht => rw [program_of_ok hitems h', program_of_ok hitems h, ih ht]
          | error e t =>
              rw [h] at hresult
              generalize h' : statementAt maxDepth _ = result at hresult
              cases hresult with
              | @error _ _ t' ht =>
                  have hlast : t'.last = t.last := by
                    obtain ⟨-⟩ := ht
                    rfl
                  have hrest := ih (ht.recover e)
                  rw [program_cons_of_error h', program_cons_of_error h, resume_eq hitems h',
                    resume_eq hitems h, hrest, hlast]

-- What is filed under a place where no item starts stays there.
def Stream.KeepsOthers (s t : Stream) : Prop :=
  t.items <:+ s.items ∧ ∀ place, (∀ item ∈ s.items, item.location.start ≠ place) →
    t.docs.get? place = s.docs.get? place

instance : Passage Stream.KeepsOthers where
  refl s := ⟨List.suffix_rfl, fun _ _ => rfl⟩
  trans s t u hst htu := by
    refine ⟨htu.1.trans hst.1, fun place hplace => ?_⟩
    rw [htu.2 place fun item hitem => hplace item (hst.1.subset hitem), hst.2 place hplace]
  taken item rest last docs errors := ⟨List.suffix_cons item rest, fun _ _ => rfl⟩

instance : Motion Stream.KeepsOthers where
  missing _ _ _ _ _ := ⟨List.suffix_rfl, fun _ _ => rfl⟩

instance : Filing Stream.KeepsOthers where
  withdrawn {item rest last docs errors t} h _ := by
    refine ⟨h.1, fun place hplace => ?_⟩
    have hother := hplace item (List.mem_cons_self ..)
    rw [h.2 place hplace, Entries.get?_remove, if_neg hother.symm]

end PhpLint.Syntax
