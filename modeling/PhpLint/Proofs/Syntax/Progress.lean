import PhpLint.Proofs.Syntax.Composition
import PhpLint.Proofs.Syntax.DepthCounter
import PhpLint.Proofs.Syntax.Precedence

namespace PhpLint.Syntax

open EStateM (bind_eq_ok_iff bind_of_error bind_of_ok)
open PhpLint.Syntax.Parser

namespace Parser

variable {α β σ : Type}

-- A run of a loop without a bound on its rounds. Where it goes on it has taken an item.
inductive Runs (step : σ → Parser (σ ⊕ α)) :
    σ → Stream → EStateM.Result SyntaxError Stream α → Prop where
  | leaves {state s a t} : step state s = .ok (.inr a) t → Runs step state s (.ok a t)
  | fails {state s error t} : step state s = .error error t → Runs step state s (.error error t)
  | goesOn {state s next t result} : step state s = .ok (.inl next) t →
      t.items.length < s.items.length → Runs step next t result → Runs step state s result

-- Every pass after which the loop goes on takes an item.
def Advances (step : σ → Parser (σ ⊕ α)) : Prop :=
  ∀ ⦃state s next t⦄, step state s = .ok (.inl next) t → t.items.length < s.items.length

-- The rounds never run out, since there are more of them than items.
theorem Advances.runs_rounds {step : σ → Parser (σ ⊕ α)} (h : Advances step) {fuel : Nat}
    {state : σ} {s : Stream} (hfuel : s.items.length < fuel) :
    Runs step state s (rounds step fuel state s) := by
  induction fuel generalizing state s with
  | zero => omega
  | succ fuel ih =>
      rw [rounds]
      cases hstep : step state s with
      | error error t =>
          rw [bind_of_error hstep]
          exact .fails hstep
      | ok result t =>
          rw [bind_of_ok hstep]
          cases result with
          | inr a => exact .leaves hstep
          | inl next =>
              have hless := h hstep
              have hrest : Runs step next t (rounds step fuel next t) := ih (by omega)
              exact .goesOn hstep hless hrest

-- A loop takes an item in any case if it takes one where it is left.
theorem Runs.length_lt {step : σ → Parser (σ ⊕ α)} {state : σ} {s : Stream}
    {result : EStateM.Result SyntaxError Stream α} (h : Runs step state s result)
    (hleave : ∀ ⦃state s a t⦄, step state s = .ok (.inr a) t → t.items.length < s.items.length) :
    ∀ ⦃a t⦄, result = .ok a t → t.items.length < s.items.length := by
  induction h with
  | leaves hstep =>
      rintro _ _ ⟨⟩
      exact hleave hstep
  | fails => exact nofun
  | goesOn _ hless _ ih =>
      intro a t hresult
      have hrest := ih hresult
      omega

-- Somewhere on its way the parser repeats the step.
inductive Repeats (step : σ → Parser (σ ⊕ α)) : {β : Type} → Parser β → Prop where
  | loop (start : σ) : Repeats step (iterate step start)
  | first {β γ : Type} {p : Parser β} {f : β → Parser γ} : Repeats step p → Repeats step (p >>= f)
  | later {β γ : Type} {p : Parser β} {f : β → Parser γ} :
      (∀ b, Repeats step (f b)) → Repeats step (p >>= f)

-- The parser has a loop with this step, and the loop gets on.
structure LoopsBy (p : Parser β) (step : σ → Parser (σ ⊕ α)) : Prop where
  loop : Repeats step p
  pass : Advances step
  run : ∀ state s, Runs step state s (iterate step state s)

theorem Advances.loopsBy {step : σ → Parser (σ ⊕ α)} (h : Advances step) {p : Parser β}
    (hloop : Repeats step p) : LoopsBy p step where
  loop := hloop
  pass := h
  run _ s := h.runs_rounds (Nat.lt_succ_self s.items.length)

theorem items_suffix {p : Parser α} [hp : Moves (fun s t => t.items <:+ s.items) p]
    {s t : Stream} {a : α} (h : p s = .ok a t) : t.items <:+ s.items :=
  hp.suffix_of_ok h

theorem length_le {p : Parser α} [Moves (fun s t => t.items <:+ s.items) p] {s t : Stream}
    {a : α} (h : p s = .ok a t) : t.items.length ≤ s.items.length :=
  (items_suffix h).length_le

theorem length_skip {token : Token} {s t : Stream} (h : skip token s = .ok true t) :
    t.items.length < s.items.length := by
  obtain ⟨item, rest, hs, -, rfl⟩ := exists_of_skip_true h
  rw [hs]
  exact Nat.lt_succ_self _

theorem length_take {expected : Expectation} {found : Token × Location} {s t : Stream}
    (h : take expected s = .ok found t) : t.items.length < s.items.length := by
  obtain ⟨item, rest, hs, -, -, rfl⟩ := exists_of_take h
  rw [hs]
  exact Nat.lt_succ_self _

theorem length_expect {token : Token} {expected : Expectation} {s t : Stream}
    (h : expect token expected s = .ok () t) : t.items.length < s.items.length := by
  obtain ⟨item, rest, hs, -, rfl⟩ := exists_of_expect h
  rw [hs]
  exact Nat.lt_succ_self _

theorem eq_of_peek? {token? : Option Token} {s t : Stream} (h : peek? s = .ok token? t) :
    t = s ∧ token? = s.items.head?.bind Lexeme.token? := by
  have hpeek : EStateM.Result.ok (s.items.head?.bind Lexeme.token?) s = .ok token? t := h
  obtain ⟨htoken, hstream⟩ := EStateM.Result.ok.inj hpeek
  exact ⟨hstream.symm, htoken.symm⟩

-- The comment is taken, but not the item it is on.
theorem items_of_takeDoc {doc : Option DocComment} {s t : Stream} (h : takeDoc s = .ok doc t) :
    t.items = s.items := by
  obtain ⟨items, last, docs, errors⟩ := s
  cases items <;> cases h <;> rfl

theorem peek?_of_takeDoc {token? : Option Token} {doc : Option DocComment} {s t u : Stream}
    (hpeek : peek? s = .ok token? t) (h : takeDoc t = .ok doc u) : peek? u = .ok token? u := by
  obtain ⟨rfl, rfl⟩ := eq_of_peek? hpeek
  rw [← items_of_takeDoc h]
  rfl

-- In front of a token there is an item to take.
theorem length_advance {token : Token} {s t u : Stream} (hpeek : peek? s = .ok (some token) t)
    (h : advance t = .ok () u) : u.items.length < s.items.length := by
  obtain ⟨rfl, htoken⟩ := eq_of_peek? hpeek
  obtain ⟨items, last, docs, errors⟩ := t
  cases items with
  | nil => cases htoken
  | cons item rest =>
      cases h
      exact Nat.lt_succ_self _

end Parser

section Lists

variable {α : Type}

theorem advances_anotherThing (closing : Symbol) (thing : Parser α)
    [Moves (fun s t => t.items <:+ s.items) thing] : Advances (anotherThing closing thing) := by
  intro things s next t h
  obtain ⟨isClosing, u, hclosing, h⟩ := bind_eq_ok_iff.mp h
  cases isClosing with
  | true => cases h
  | false =>
      obtain ⟨x, v, hthing, h⟩ := bind_eq_ok_iff.mp h
      obtain ⟨isComma, w, hcomma, h⟩ := bind_eq_ok_iff.mp h
      cases isComma with
      | false => cases h
      | true =>
          cases h
          have hu := length_le hclosing
          have hv := length_le hthing
          have hw := length_skip hcomma
          omega

end Lists

section Expressions

variable {nested : Nested} [Nested.Moves (fun s t => t.items <:+ s.items) nested]

theorem advances_anotherAccess : Advances (anotherAccess nested) := by
  rintro ⟨object, height⟩ s next t h
  obtain ⟨result, u, haccess, h⟩ := bind_eq_ok_iff.mp h
  cases result with
  | none => cases h
  | some result =>
      obtain ⟨⟨⟩, v, hheight, h⟩ := bind_eq_ok_iff.mp h
      cases h
      have hv := length_le hheight
      -- An arrow or a bracket came first.
      obtain ⟨isArrow, w, harrow, haccess⟩ := bind_eq_ok_iff.mp haccess
      cases isArrow with
      | true =>
          obtain ⟨member, x, hmember, haccess⟩ := bind_eq_ok_iff.mp haccess
          cases haccess
          have hw := length_skip harrow
          have hx := length_le hmember
          omega
      | false =>
          have hw := length_le harrow
          obtain ⟨isBracket, x, hbracket, haccess⟩ := bind_eq_ok_iff.mp haccess
          cases isBracket with
          | false => cases haccess
          | true =>
              obtain ⟨subscript, y, hsubscript, haccess⟩ := bind_eq_ok_iff.mp haccess
              cases haccess
              have hx := length_skip hbracket
              have hy := length_le hsubscript
              omega

theorem advances_anotherOperation (table : List (Token × BinaryOp)) (operand : Parser Expr)
    [Moves (fun s t => t.items <:+ s.items) operand] :
    Advances (anotherOperation table operand) := by
  intro left s next t h
  obtain ⟨token?, u, hpeek, h⟩ := bind_eq_ok_iff.mp h
  cases token? with
  | none => cases h
  | some token =>
      cases hop : table.lookup token with
      | none =>
          simp only [Option.bind_some, hop] at h
          cases h
      | some op =>
          simp only [Option.bind_some, hop] at h
          obtain ⟨⟨⟩, v, hadvance, h⟩ := bind_eq_ok_iff.mp h
          obtain ⟨place, w, hlast, h⟩ := bind_eq_ok_iff.mp h
          obtain ⟨right, x, hright, h⟩ := bind_eq_ok_iff.mp h
          obtain ⟨⟨⟩, y, hheight, h⟩ := bind_eq_ok_iff.mp h
          cases h
          have hv := length_advance hpeek hadvance
          have hw := length_le hlast
          have hx := length_le hright
          have hy := length_le hheight
          omega

end Expressions

section Statements

variable {parts : Parts} [Parts.Moves (fun s t => t.items <:+ s.items) parts]

theorem advances_anotherExpression : Advances (anotherExpression parts) := by
  intro expressions s next t h
  obtain ⟨isComma, u, hcomma, h⟩ := bind_eq_ok_iff.mp h
  cases isComma with
  | false => cases h
  | true =>
      obtain ⟨e, v, he, h⟩ := bind_eq_ok_iff.mp h
      cases h
      have hu := length_skip hcomma
      have hv := length_le he
      omega

theorem advances_anotherClause : Advances (anotherClause parts) := by
  intro clauses s next t h
  obtain ⟨start, u, hstart, h⟩ := bind_eq_ok_iff.mp h
  have hu := length_le hstart
  obtain ⟨isElseif, v, helseif, h⟩ := bind_eq_ok_iff.mp h
  cases isElseif with
  | true =>
      obtain ⟨clause, w, hclause, h⟩ := bind_eq_ok_iff.mp h
      cases h
      have hv := length_skip helseif
      have hw := length_le hclause
      omega
  | false =>
      have hv := length_le helseif
      obtain ⟨isElse, w, helse, h⟩ := bind_eq_ok_iff.mp h
      cases isElse with
      | false => cases h
      | true =>
          have hw := length_skip helse
          obtain ⟨start, x, hstart, h⟩ := bind_eq_ok_iff.mp h
          obtain ⟨isIf, y, hif, h⟩ := bind_eq_ok_iff.mp h
          cases isIf with
          | false =>
              obtain ⟨body, z, hbody, h⟩ := bind_eq_ok_iff.mp h
              cases h
          | true =>
              obtain ⟨clause, z, hclause, h⟩ := bind_eq_ok_iff.mp h
              cases h
              have hx := length_le hstart
              have hy := length_le hif
              have hz := length_le hclause
              omega

theorem length_terminator {s t : Stream} (h : terminator s = .ok () t)
    (hclose : s.items.head?.bind Lexeme.token? ≠ some .closeTag) :
    t.items.length < s.items.length := by
  have hnext : isNext .closeTag s =
      .ok (s.items.head?.bind Lexeme.token? == some .closeTag) s := rfl
  rw [beq_eq_false_iff_ne.mpr hclose] at hnext
  rw [terminator, bind_of_ok hnext] at h
  exact length_expect h

-- An expression may take nothing where an operand is missing, and a terminator may take
-- nothing in front of a closing tag. Not both: without a closing tag in front, the
-- expression takes an item or leaves one to the terminator that is not such a tag.
theorem length_expressionStatement {start : Option Location} {made : Stmt} {s t : Stream}
    (h : expressionStatement parts start s = .ok made t)
    (hclose : s.items.head?.bind Lexeme.token? ≠ some .closeTag) :
    t.items.length < s.items.length := by
  obtain ⟨e, u, he, h⟩ := bind_eq_ok_iff.mp h
  obtain ⟨⟨⟩, v, hend, h⟩ := bind_eq_ok_iff.mp h
  have hsuffix := items_suffix he
  have ht := length_le h
  by_cases htaken : u.items.length < s.items.length
  · have hv := length_le hend
    omega
  · have hsame : u.items = s.items := hsuffix.eq_of_length_le (by omega)
    rw [← hsame] at hclose
    have hu := hsuffix.length_le
    have hv := length_terminator hend hclose
    omega

theorem length_classDeclaration {doc : Option DocComment} {start : Option Location} {made : Stmt}
    {s t : Stream} (h : classDeclaration parts doc start s = .ok made t) :
    t.items.length < s.items.length := by
  obtain ⟨modifiers, u, hmodifiers, h⟩ := bind_eq_ok_iff.mp h
  obtain ⟨⟨⟩, v, hclass, h⟩ := bind_eq_ok_iff.mp h
  have hu := length_le hmodifiers
  have hv := length_expect hclass
  have ht := length_le h
  omega

-- A statement that succeeds takes an item, at whatever depth it is.
theorem length_statement {made : Option Stmt} {s t : Stream} (h : statement parts s = .ok made t) :
    t.items.length < s.items.length := by
  obtain ⟨start, s₁, hstart, h⟩ := bind_eq_ok_iff.mp h
  obtain ⟨token?, u, hpeek, h⟩ := bind_eq_ok_iff.mp h
  have hs₁ := length_le hstart
  split at h
  case h_11 =>
    obtain ⟨doc, v, hdoc, h⟩ := bind_eq_ok_iff.mp h
    obtain ⟨⟨⟩, w, hadvance, h⟩ := bind_eq_ok_iff.mp h
    have hw := length_advance (peek?_of_takeDoc hpeek hdoc) hadvance
    have hu := length_le hpeek
    have hv := congrArg List.length (items_of_takeDoc hdoc)
    have ht := length_le h
    omega
  case h_12 | h_13 | h_14 =>
    obtain ⟨doc, v, hdoc, h⟩ := bind_eq_ok_iff.mp h
    obtain ⟨made, w, hclass, h⟩ := bind_eq_ok_iff.mp h
    cases h
    have hu := length_le hpeek
    have hv := congrArg List.length (items_of_takeDoc hdoc)
    have hw := length_classDeclaration hclass
    omega
  case h_15 hclose _ _ _ _ _ _ _ _ _ _ _ _ =>
    obtain ⟨made, v, hexpression, h⟩ := bind_eq_ok_iff.mp h
    cases h
    obtain ⟨rfl, htoken⟩ := eq_of_peek? hpeek
    have hv := length_expressionStatement hexpression fun hfront => hclose (htoken.trans hfront)
    omega
  all_goals
    obtain ⟨⟨⟩, v, hadvance, h⟩ := bind_eq_ok_iff.mp h
    have hv := length_advance hpeek hadvance
    have ht := length_le h
    omega

omit [Parts.Moves (fun s t => t.items <:+ s.items) parts] in
theorem advances_anotherStatement
    (hstatement : ∀ ⦃s made t⦄, parts.statement s = .ok made t → t.items.length < s.items.length) :
    Advances (anotherStatement parts) := by
  intro statements s next t h
  obtain ⟨isClosed, u, hclosed, h⟩ := bind_eq_ok_iff.mp h
  cases isClosed with
  | true => cases h
  | false =>
      have hu := length_le hclosed
      obtain ⟨now, v, hnow, h⟩ := bind_eq_ok_iff.mp h
      cases hnow
      by_cases hempty : u.items.isEmpty
      · simp only [hempty, if_true] at h
        cases h
      · simp only [hempty, Bool.false_eq_true, if_false] at h
        obtain ⟨made, w, hmade, h⟩ := bind_eq_ok_iff.mp h
        have hw := hstatement hmade
        cases made <;> cases h <;> omega

theorem advances_anotherModifier (modifier? : Token → Option Modifier) :
    Advances (anotherModifier modifier?) := by
  intro modifiers s next t h
  obtain ⟨token?, u, hpeek, h⟩ := bind_eq_ok_iff.mp h
  cases token? with
  | none => cases h
  | some token =>
      cases hmodifier : modifier? token with
      | none =>
          simp only [Option.bind_some, hmodifier] at h
          cases h
      | some modifier =>
          simp only [Option.bind_some, hmodifier] at h
          obtain ⟨⟨⟩, v, hadvance, h⟩ := bind_eq_ok_iff.mp h
          cases h
          exact length_advance hpeek hadvance

theorem length_anotherToken {state : Unit} {result : Unit ⊕ Unit} {s t : Stream}
    (h : anotherToken state s = .ok result t) : t.items.length < s.items.length := by
  obtain ⟨found, u, hfound, h⟩ := bind_eq_ok_iff.mp h
  have hu := length_take hfound
  split at h <;> cases h <;> exact hu

theorem length_skipField {s t : Stream} (h : skipField s = .ok () t) :
    t.items.length < s.items.length := by
  have hadvances : Advances anotherToken := fun _ _ _ _ => length_anotherToken
  have hrun : Runs anotherToken () s (skipField s) :=
    hadvances.runs_rounds (Nat.lt_succ_self s.items.length)
  exact hrun.length_lt (fun _ _ _ _ => length_anotherToken) h

theorem length_classMember {made : Option Method} {s t : Stream}
    (h : classMember parts s = .ok made t) : t.items.length < s.items.length := by
  obtain ⟨start, s₁, hstart, h⟩ := bind_eq_ok_iff.mp h
  obtain ⟨doc, s₂, hdoc, h⟩ := bind_eq_ok_iff.mp h
  obtain ⟨modifiers, s₃, hmodifiers, h⟩ := bind_eq_ok_iff.mp h
  obtain ⟨isFunction, u, hfunction, h⟩ := bind_eq_ok_iff.mp h
  have hs₁ := length_le hstart
  have hs₂ := congrArg List.length (items_of_takeDoc hdoc)
  have hs₃ := length_le hmodifiers
  cases isFunction with
  | true =>
      have hu := length_skip hfunction
      obtain ⟨method, v, hmethod, h⟩ := bind_eq_ok_iff.mp h
      cases h
      have hv := length_le hmethod
      omega
  | false =>
      have hu := length_le hfunction
      obtain ⟨token?, v, hpeek, h⟩ := bind_eq_ok_iff.mp h
      have hv := length_le hpeek
      by_cases hfield : token?.any startsField
      · simp only [hfield, if_true] at h
        obtain ⟨⟨⟩, w, hskip, h⟩ := bind_eq_ok_iff.mp h
        cases h
        have hw := length_skipField hskip
        omega
      · simp only [hfield, Bool.false_eq_true, if_false] at h
        obtain ⟨found, w, hfound, h⟩ := bind_eq_ok_iff.mp h
        cases h

theorem advances_anotherMember : Advances (anotherMember parts) := by
  intro methods s next t h
  obtain ⟨isClosed, u, hclosed, h⟩ := bind_eq_ok_iff.mp h
  cases isClosed with
  | true => cases h
  | false =>
      have hu := length_le hclosed
      obtain ⟨made, v, hmade, h⟩ := bind_eq_ok_iff.mp h
      have hv := length_classMember hmade
      cases made <;> cases h <;> omega

end Statements

section Skipping

-- A loop that skips items is told by what it does with the item in front: it takes that
-- one and goes on behind it, or it ends.
theorem iterate_eq_of_front {step : Unit → Parser (Unit ⊕ Unit)}
    (skip : List Item → Location → List Item × Location)
    (hnil : ∀ last docs errors, step () ⟨[], last, docs, errors⟩ =
      .ok (.inr ()) ⟨(skip [] last).1, (skip [] last).2, docs, errors⟩)
    (hcons : ∀ item rest last docs errors,
      (step () ⟨item :: rest, last, docs, errors⟩ =
          .ok (.inl ()) ⟨rest, item.location, docs, errors⟩ ∧
        skip (item :: rest) last = skip rest item.location) ∨
      step () ⟨item :: rest, last, docs, errors⟩ =
        .ok (.inr ()) ⟨(skip (item :: rest) last).1, (skip (item :: rest) last).2, docs, errors⟩)
    (s : Stream) :
    iterate step () s =
      .ok () ⟨(skip s.items s.last).1, (skip s.items s.last).2, s.docs, s.errors⟩ := by
  obtain ⟨items, last, docs, errors⟩ := s
  have hrounds : ∀ fuel, items.length < fuel → rounds step fuel () ⟨items, last, docs, errors⟩ =
      .ok () ⟨(skip items last).1, (skip items last).2, docs, errors⟩ := by
    induction items generalizing last with
    | nil =>
        intro fuel hfuel
        obtain ⟨fuel, rfl⟩ : ∃ n, fuel = n + 1 := ⟨fuel - 1, by omega⟩
        rw [rounds, bind_of_ok (hnil last docs errors)]
        rfl
    | cons item rest ih =>
        intro fuel hfuel
        rw [List.length_cons] at hfuel
        obtain ⟨fuel, rfl⟩ : ∃ n, fuel = n + 1 := ⟨fuel - 1, by omega⟩
        rcases hcons item rest last docs errors with ⟨hstep, hskip⟩ | hstep
        · rw [rounds, bind_of_ok hstep, hskip]
          exact ih item.location fuel (by omega)
        · rw [rounds, bind_of_ok hstep]
          rfl
  exact hrounds (items.length + 1) (Nat.lt_succ_self _)

-- One more token of the kind that is skipped.
def anotherSkip (p : Token → Bool) (_ : Unit) : Parser (Unit ⊕ Unit) := do
  if (← peek?).any p then
    advance
    return .inl ()
  return .inr ()

theorem advances_anotherSkip (p : Token → Bool) : Advances (anotherSkip p) := by
  intro state s next t h
  obtain ⟨token?, u, hpeek, h⟩ := bind_eq_ok_iff.mp h
  cases token? with
  | none => cases h
  | some token =>
      by_cases hp : p token
      · simp only [Option.any_some, hp, if_true] at h
        obtain ⟨⟨⟩, v, hadvance, h⟩ := bind_eq_ok_iff.mp h
        cases h
        exact length_advance hpeek hadvance
      · simp only [Option.any_some, hp, Bool.false_eq_true, if_false] at h
        cases h

theorem skipWhile_eq (p : Token → Bool) : skipWhile p = iterate (anotherSkip p) () := by
  funext s
  symm
  apply iterate_eq_of_front (skipWhileIn p) fun _ _ _ => rfl
  intro item rest last docs errors
  have hpeek : peek? ⟨item :: rest, last, docs, errors⟩ =
      .ok item.token? ⟨item :: rest, last, docs, errors⟩ := rfl
  rw [anotherSkip, bind_of_ok hpeek, skipWhileIn]
  by_cases hp : item.token?.any p
  · simp only [hp, if_true]
    exact .inl ⟨rfl, trivial⟩
  · simp only [hp, Bool.false_eq_true, if_false]
    exact .inr rfl

-- One more token of a statement that failed. An item that is no token ends it.
def anotherLoss (_ : Unit) : Parser (Unit ⊕ Unit) := do
  match ← peek? with
  | none =>
    advance
    return .inr ()
  | some token =>
    if startsDeclaration token then return .inr ()
    advance
    if endsStatement token then return .inr ()
    return .inl ()

theorem advances_anotherLoss : Advances anotherLoss := by
  intro state s next t h
  obtain ⟨token?, u, hpeek, h⟩ := bind_eq_ok_iff.mp h
  cases token? with
  | none =>
      obtain ⟨⟨⟩, v, hadvance, h⟩ := bind_eq_ok_iff.mp h
      cases h
  | some token =>
      by_cases hstarts : startsDeclaration token
      · simp only [hstarts, if_true] at h
        cases h
      · simp only [hstarts, Bool.false_eq_true, if_false] at h
        obtain ⟨⟨⟩, v, hadvance, h⟩ := bind_eq_ok_iff.mp h
        have hv := length_advance hpeek hadvance
        by_cases hends : endsStatement token
        · simp only [hends, if_true] at h
          cases h
        · simp only [hends, Bool.false_eq_true, if_false] at h
          cases h
          exact hv

-- Where parsing goes on after a statement that failed, as a loop.
theorem recover_eq (s : Stream) : iterate anotherLoss () s = .ok () s.recover := by
  apply iterate_eq_of_front skipStatement fun _ _ _ => rfl
  intro item rest last docs errors
  have hpeek : peek? ⟨item :: rest, last, docs, errors⟩ =
      .ok item.token? ⟨item :: rest, last, docs, errors⟩ := rfl
  rw [anotherLoss, bind_of_ok hpeek, skipStatement]
  cases item.token? with
  | none => exact .inr rfl
  | some token =>
      by_cases hstarts : startsDeclaration token
      · simp only [hstarts, if_true]
        exact .inr rfl
      · by_cases hends : endsStatement token
        · simp only [hstarts, hends, if_true, Bool.false_eq_true, if_false]
          exact .inr rfl
        · simp only [hstarts, hends, Bool.false_eq_true, if_false]
          exact .inl ⟨rfl, trivial⟩

end Skipping

-- The loops of the grammar, with the given parsers for what is nested in an expression and
-- in a statement, and the loop after a statement that failed.
structure LoopsAdvance (nested : Nested) (parts : Parts) : Prop where
  arguments : (arguments nested).LoopsBy (anotherThing .parenRight nested.expression)
  arrayItems closing :
    (arrayItems nested closing).LoopsBy (anotherThing closing (arrayItem nested))
  accesses : (accesses nested).LoopsBy (anotherAccess nested)
  operation table tighter : (operation table (climb nested tighter)).LoopsBy
    (anotherOperation table (climb nested tighter))
  echo start : (echo parts start).LoopsBy (anotherExpression parts)
  alternatives : (alternatives parts).LoopsBy (anotherClause parts)
  block start : (block parts start).LoopsBy (anotherStatement parts)
  parameters : (parameters parts).LoopsBy (anotherThing .parenRight (parameter parts))
  modifiers modifier? : (modifiers modifier?).LoopsBy (anotherModifier modifier?)
  classMethods : (classMethods parts).LoopsBy (anotherMember parts)
  skipField : skipField.LoopsBy anotherToken
  skipWhile p : (skipWhile p).LoopsBy (anotherSkip p)
  recovery : (modify Stream.recover : Parser Unit).LoopsBy anotherLoss

theorem loopsAdvance {nested : Nested} {parts : Parts}
    [Nested.Moves (fun s t => t.items <:+ s.items) nested]
    [Parts.Moves (fun s t => t.items <:+ s.items) parts]
    (hstatement : ∀ ⦃s made t⦄, parts.statement s = .ok made t → t.items.length < s.items.length) :
    LoopsAdvance nested parts where
  arguments := (advances_anotherThing _ _).loopsBy (.later fun _ => .first (.loop []))
  arrayItems closing := (advances_anotherThing _ _).loopsBy (.first (.loop []))
  accesses := advances_anotherAccess.loopsBy (.later fun _ => .loop _)
  operation table tighter :=
    (advances_anotherOperation table _).loopsBy (.later fun left => .loop left)
  echo start := advances_anotherExpression.loopsBy (.later fun first => .first (.loop [first]))
  alternatives := advances_anotherClause.loopsBy (.loop [])
  block start := (advances_anotherStatement hstatement).loopsBy (.first (.loop []))
  parameters := (advances_anotherThing _ _).loopsBy (.later fun _ => .first (.loop []))
  modifiers modifier? := (advances_anotherModifier modifier?).loopsBy (.loop [])
  classMethods := advances_anotherMember.loopsBy (.loop [])
  skipField := Advances.loopsBy (fun _ _ _ _ => length_anotherToken) (.loop ())
  skipWhile p := by
    rw [skipWhile_eq]
    exact (advances_anotherSkip p).loopsBy (.loop ())
  recovery := by
    have heq : (modify Stream.recover : Parser Unit) = iterate anotherLoss () :=
      funext fun s => (recover_eq s).symm
    rw [heq]
    exact advances_anotherLoss.loopsBy (.loop ())

instance (depth : Nat) : Parts.Moves (fun s t => t.items <:+ s.items)
    ⟨(nestedAt depth).expression, statementAt depth⟩ :=
  ⟨inferInstanceAs (Moves _ (nestedAt depth).expression),
    inferInstanceAs (Moves _ (statementAt depth))⟩

theorem length_statementAt {depth : Nat} {made : Option Stmt} {s t : Stream}
    (h : statementAt depth s = .ok made t) : t.items.length < s.items.length := by
  cases depth with
  | zero => cases h
  | succ depth => exact length_statement h

theorem loopsAdvance_at (depth : Nat) :
    LoopsAdvance (nestedAt depth) ⟨(nestedAt depth).expression, statementAt depth⟩ :=
  loopsAdvance fun _ _ _ => length_statementAt

-- The statements from the first item on, without a bound on the passes. The counter of
-- levels is at zero before a statement and after it, whichever way it ends, and each pass
-- takes an item.
inductive Completes (alarm : SyntaxError) : Stream → List Stmt × List SyntaxError → Prop where
  | done {s} : s.items = [] → Completes alarm s ([], s.errors.reverse)
  | success {s t made statements errors} :
      Counting.statement alarm (maxDepth + 1) (s, 0) = .ok made (t, 0) →
      t.items.length < s.items.length → Completes alarm t (statements, errors) →
      Completes alarm s (made.toList ++ statements, errors)
  | failure {s t error first rest statements errors} : s.items = first :: rest →
      Counting.statement alarm (maxDepth + 1) (s, 0) = .error error (t, 0) →
      (resume s t error).items.length < s.items.length →
      Completes alarm (resume s t error) (statements, errors) →
      Completes alarm s (.invalid (first.location.cover t.last) :: statements, errors)

-- At the top the counter makes no difference and is back at zero.
theorem counting_statement (alarm : SyntaxError) (s : Stream) :
    Counting.statement alarm (maxDepth + 1) (s, 0) =
      Counting.beside 0 (statementAt maxDepth s) :=
  Counting.statement_eq (Nat.zero_le _) (Nat.lt_succ_self _) s

-- By induction on the rounds, of which there are enough.
theorem completes_program (alarm : SyntaxError) {rounds : Nat} {s : Stream}
    (hrounds : s.items.length ≤ rounds) : Completes alarm s (program rounds s) := by
  induction rounds generalizing s with
  | zero =>
      have hnil : s.items = [] := List.length_eq_zero_iff.mp (by omega)
      exact .done hnil
  | succ rounds ih =>
      by_cases hitems : s.items = []
      · rw [program_of_nil hitems]
        exact .done hitems
      · have hcounting := counting_statement alarm s
        cases h : statementAt maxDepth s with
        | ok made t =>
            have hless := length_statementAt h
            rw [h] at hcounting
            rw [program_of_ok hitems h]
            exact .success hcounting hless (ih (by omega))
        | error error t =>
            have hless := length_resume hitems h
            rw [h] at hcounting
            obtain ⟨items, last, docs, errors⟩ := s
            obtain ⟨first, rest, rfl⟩ := List.exists_cons_of_ne_nil hitems
            rw [program_cons_of_error h]
            exact .failure rfl hcounting hless (ih (by omega))

end PhpLint.Syntax

namespace PhpLint

open Syntax

-- Whatever the lexemes are, parsing comes to its end by passes that each take an item,
-- with a counter of levels that is balanced throughout, and no loop in it can go on without
-- taking an item.
theorem parsing_ends_and_advances (alarm : SyntaxError) (lexemes : List Lexeme) (depth : Nat) :
    Completes alarm (Stream.ofLexemes lexemes) (parse lexemes) ∧
    (∀ s, Counting.statement alarm (maxDepth + 1) (s, 0) =
      Counting.beside 0 (statementAt maxDepth s)) ∧
    LoopsAdvance (nestedAt depth) ⟨(nestedAt depth).expression, statementAt depth⟩ :=
  ⟨completes_program alarm (Nat.le_refl _), counting_statement alarm, loopsAdvance_at depth⟩

end PhpLint
