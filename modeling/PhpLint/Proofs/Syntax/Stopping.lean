import Mathlib.Tactic.Choose
import PhpLint.Proofs.Syntax.Progress

namespace PhpLint.Syntax

open EStateM (bind_of_error bind_of_ok)
open PhpLint.Syntax.Parser

-- The tokens that end a statement. No expression goes past them.
def stops : Token → Bool
  | .symbol .semicolon | .closeTag => true
  | _ => false

def Item.IsStop (item : Item) : Prop :=
  item.token?.any stops

theorem Item.IsStop.exists_token {item : Item} (h : item.IsStop) :
    ∃ token, item.token? = some token ∧ stops token = true :=
  (Option.any_eq_true _ _).mp h

theorem ne_of_stops {found token : Token} (hfound : stops found = true)
    (htoken : stops token = false) : found ≠ token := by
  rintro rfl
  rw [htoken] at hfound
  cases hfound

theorem eq_of_stops {token : Token} (h : stops token = true) :
    token = .symbol .semicolon ∨ token = .closeTag := by
  unfold stops at h
  split at h
  · exact .inl rfl
  · exact .inr rfl
  · cases h

theorem endsOperand_of_stops {token : Token} (h : stops token = true) :
    endsOperand token = true := by
  rcases eq_of_stops h with rfl | rfl <;> rfl

-- The same stream with these comments and with more items behind.
def Stream.followedBy (s : Stream) (docs : Docs) (more : List Item) : Stream :=
  ⟨s.items ++ more, s.last, docs, s.errors⟩

@[simp] theorem Stream.followedBy_mk (items more : List Item) (last : Location) (docs others : Docs)
    (errors : List SyntaxError) :
    Stream.followedBy ⟨items, last, docs, errors⟩ others more =
      ⟨items ++ more, last, others, errors⟩ := rfl

-- How a parser ends on items behind which there is one that stops it: it succeeds or fails
-- and leaves that item, with what is left in front of it, or it fails on that item.
inductive Cut (α : Type) where
  | done (a : α) (rest : Stream)
  | failed (error : SyntaxError) (rest : Stream)
  | taken (error : SyntaxError) (errors : List SyntaxError)

namespace Cut

variable {α β : Type}

-- What it comes to with the item that stops it and whatever is behind that one.
def result (docs : Docs) (stop : Item) (more : List Item) :
    Cut α → EStateM.Result SyntaxError Stream α
  | done a rest => .ok a (rest.followedBy docs (stop :: more))
  | failed error rest => .error error (rest.followedBy docs (stop :: more))
  | taken error errors => .error error ⟨more, stop.location, docs, errors⟩

def bind (f : α → Stream → Cut β) : Cut α → Cut β
  | done a rest => f a rest
  | failed error rest => failed error rest
  | taken error errors => taken error errors

-- Items are only taken and errors are only added.
def Within (s : Stream) : Cut α → Prop
  | done _ rest | failed _ rest => rest.items <:+ s.items ∧ s.errors <:+ rest.errors
  | taken _ errors => s.errors <:+ errors

theorem Within.trans {s t : Stream} {cut : Cut α} (h : cut.Within t)
    (hitems : t.items <:+ s.items) (herrors : s.errors <:+ t.errors) : cut.Within s := by
  cases cut with
  | done | failed => exact ⟨h.1.trans hitems, herrors.trans h.2⟩
  | taken => exact List.IsSuffix.trans herrors h

end Cut

-- The way in which a parser ends depends on the item that stops it, but not on what is
-- behind that one, nor on the comments, which it leaves alone. If nothing is reported it does
-- not even depend on which item stops it.
structure Parser.HaltsBy {α : Type} (p : Parser α) (s : Stream) (cut : Item → Cut α) : Prop where
  result_eq : ∀ stop, stop.IsStop → ∀ docs more,
    p (s.followedBy docs (stop :: more)) = (cut stop).result docs stop more
  within : ∀ stop, stop.IsStop → (cut stop).Within s
  quiet : ∀ stop other, stop.IsStop → other.IsStop → ∀ a t, cut stop = .done a t →
    t.errors = s.errors → cut other = .done a t

def Parser.HaltsAt {α : Type} (s : Stream) (p : Parser α) : Prop :=
  ∃ cut, p.HaltsBy s cut

-- A parser that never takes a semicolon or a closing tag, except to fail.
def Parser.Halts {α : Type} (p : Parser α) : Prop :=
  ∀ s, p.HaltsAt s

namespace Parser

section Rules

variable {α β σ : Type} {s : Stream} {p q : Parser α} {f : α → Parser β}

theorem HaltsAt.of_eq (h : HaltsAt s q)
    (heq : ∀ stop docs more, stop.IsStop →
      p (s.followedBy docs (stop :: more)) = q (s.followedBy docs (stop :: more))) :
    HaltsAt s p := by
  obtain ⟨cut, hcut⟩ := h
  refine ⟨cut, ?_, hcut.within, hcut.quiet⟩
  intro stop hstop docs more
  rw [heq stop docs more hstop]
  exact hcut.result_eq stop hstop docs more

-- A parser that does not look at the items that stop it.
theorem haltsAt_done {a : α} {t : Stream} (hitems : t.items <:+ s.items)
    (herrors : s.errors <:+ t.errors)
    (h : ∀ stop docs more, stop.IsStop →
      p (s.followedBy docs (stop :: more)) = .ok a (t.followedBy docs (stop :: more))) :
    HaltsAt s p := by
  refine ⟨fun _ => .done a t, fun stop hstop docs more => h stop docs more hstop,
    fun _ _ => ⟨hitems, herrors⟩, ?_⟩
  intro _ _ _ _ b u hdone _
  exact hdone

theorem haltsAt_failed {e : SyntaxError} {t : Stream} (hitems : t.items <:+ s.items)
    (herrors : s.errors <:+ t.errors)
    (h : ∀ stop docs more, stop.IsStop →
      p (s.followedBy docs (stop :: more)) = .error e (t.followedBy docs (stop :: more))) :
    HaltsAt s p := by
  refine ⟨fun _ => .failed e t, fun stop hstop docs more => h stop docs more hstop,
    fun _ _ => ⟨hitems, herrors⟩, ?_⟩
  rintro _ _ _ _ _ _ ⟨⟩

theorem halts_pure (a : α) : Halts (pure a : Parser α) :=
  fun _ => haltsAt_done List.suffix_rfl List.suffix_rfl fun _ _ _ _ => rfl

theorem halts_throw (error : SyntaxError) : Halts (throw error : Parser α) :=
  fun _ => haltsAt_failed List.suffix_rfl List.suffix_rfl fun _ _ _ _ => rfl

theorem halts_last : Halts last :=
  fun s => haltsAt_done (a := s.last) List.suffix_rfl List.suffix_rfl fun _ _ _ _ => rfl

theorem halts_tooDeep : Halts (tooDeep : Parser α) :=
  fun s => haltsAt_failed (e := .tooDeep s.last) List.suffix_rfl List.suffix_rfl
    fun _ _ _ _ => rfl

theorem HaltsAt.bind (hp : HaltsAt s p) (hf : ∀ a, Halts (f a)) : HaltsAt s (p >>= f) := by
  obtain ⟨first, hfirst⟩ := hp
  choose second hsecond using hf
  refine ⟨fun stop => (first stop).bind fun a t => second a t stop, ?_, ?_, ?_⟩
  · intro stop hstop docs more
    have hp := hfirst.result_eq stop hstop docs more
    cases hcut : first stop with
    | done a t =>
        rw [hcut] at hp
        rw [bind_of_ok hp]
        exact (hsecond a t).result_eq stop hstop docs more
    | failed error t =>
        rw [hcut] at hp
        exact bind_of_error hp
    | taken error errors =>
        rw [hcut] at hp
        exact bind_of_error hp
  · intro stop hstop
    have hwithin := hfirst.within stop hstop
    cases hcut : first stop with
    | done a t =>
        rw [hcut] at hwithin
        exact ((hsecond a t).within stop hstop).trans hwithin.1 hwithin.2
    | failed error t | taken error errors =>
        rw [hcut] at hwithin
        exact hwithin
  · intro stop other hstop hother b u hdone herrors
    cases hcut : first stop with
    | done a t =>
        have hwithin := hfirst.within stop hstop
        rw [hcut] at hwithin hdone
        have hlater := (hsecond a t).within stop hstop
        have hsecondStop : second a t stop = .done b u := hdone
        rw [hsecondStop] at hlater
        -- Nothing is reported in the first part, since nothing is by the end.
        have hsame : s.errors = t.errors := by
          apply hwithin.2.eq_of_length_le
          rw [← herrors]
          exact hlater.2.length_le
        have hfirstOther := hfirst.quiet stop other hstop hother a t hcut hsame.symm
        have hsecondOther := (hsecond a t).quiet stop other hstop hother b u hsecondStop
          (herrors.trans hsame)
        simp only [hfirstOther]
        exact hsecondOther
    | failed error t =>
        rw [hcut] at hdone
        cases hdone
    | taken error errors =>
        rw [hcut] at hdone
        cases hdone

theorem Halts.bind (hp : Halts p) (hf : ∀ a, Halts (f a)) : Halts (p >>= f) :=
  fun s => (hp s).bind hf

theorem halts_spanFrom (start : Option Location) : Halts (spanFrom start) :=
  halts_last.bind fun _ => halts_pure _

theorem halts_rounds {step : σ → Parser (σ ⊕ α)} (hstep : ∀ state, Halts (step state)) (fuel : Nat)
    (state : σ) : Halts (rounds step fuel state) := by
  induction fuel generalizing state with
  | zero => exact halts_last.bind fun _ => halts_throw _
  | succ fuel ih =>
      rw [rounds]
      apply (hstep state).bind
      intro result
      cases result with
      | inl state => exact ih state
      | inr result => exact halts_pure result

-- The items in front of the one that stops a loop are all that it can take, so that no
-- more rounds are needed than there are of these.
theorem rounds_followedBy_eq {step : σ → Parser (σ ⊕ α)} (hstep : ∀ state, Halts (step state))
    (hadvances : Advances step) {fuel enough : Nat} {state : σ} {stop : Item} {docs : Docs}
    {more : List Item}
    (hstop : stop.IsStop) (hfuel : s.items.length < fuel) (henough : s.items.length < enough) :
    rounds step fuel state (s.followedBy docs (stop :: more)) =
      rounds step enough state (s.followedBy docs (stop :: more)) := by
  induction fuel generalizing enough state s with
  | zero => omega
  | succ fuel ih =>
      obtain ⟨enough, rfl⟩ : ∃ n, enough = n + 1 := ⟨enough - 1, by omega⟩
      obtain ⟨cut, hcut⟩ := hstep state s
      have hresult := hcut.result_eq stop hstop docs more
      rw [rounds, rounds]
      cases hone : cut stop with
      | done result t =>
          rw [hone] at hresult
          rw [bind_of_ok hresult, bind_of_ok hresult]
          cases result with
          | inl next =>
              have hless := hadvances hresult
              simp only [Stream.followedBy, List.length_append] at hless
              exact ih (by omega) (by omega)
          | inr result => rfl
      | failed error t | taken error errors =>
          rw [hone] at hresult
          rw [bind_of_error hresult, bind_of_error hresult]

theorem halts_iterate {step : σ → Parser (σ ⊕ α)} (hstep : ∀ state, Halts (step state))
    (hadvances : Advances step) (start : σ) : Halts (iterate step start) := by
  intro s
  apply (halts_rounds hstep (s.items.length + 1) start s).of_eq
  intro stop docs more hstop
  have henough : s.items.length < (s.followedBy docs (stop :: more)).items.length + 1 := by
    simp only [Stream.followedBy, List.length_append]
    omega
  exact rounds_followedBy_eq hstep hadvances hstop henough (Nat.lt_succ_self _)

-- With nothing in front of the item that stops it, a parser that looks ahead sees only that
-- this is none of the tokens it looks for.
theorem halts_peek {f : Option Token → Parser β} {q : Parser β} (hq : Halts q)
    (hstop : ∀ token, stops token = true → f (some token) = q)
    (hfront : ∀ item rest last docs errors,
      HaltsAt ⟨item :: rest, last, docs, errors⟩ (f item.token?)) :
    Halts (peek? >>= f) := by
  rintro ⟨_ | ⟨item, rest⟩, last, docs, errors⟩
  · apply (hq ⟨[], last, docs, errors⟩).of_eq
    intro stop docs more h
    obtain ⟨token, htoken, hstops⟩ := h.exists_token
    have hpeek : peek? ⟨stop :: more, last, docs, errors⟩ =
        .ok stop.token? ⟨stop :: more, last, docs, errors⟩ := rfl
    rw [htoken] at hpeek
    rw [Stream.followedBy_mk, List.nil_append, bind_of_ok hpeek, hstop token hstops]
  · exact (hfront item rest last docs errors).of_eq fun _ _ _ _ => rfl

theorem haltsAt_advance {f : Unit → Parser β} (item : Item) (rest : List Item) (last : Location)
    (docs : Docs) (errors : List SyntaxError) (hf : Halts (f ())) :
    HaltsAt ⟨item :: rest, last, docs, errors⟩ (advance >>= f) := by
  have hadvance : HaltsAt ⟨item :: rest, last, docs, errors⟩ advance :=
    haltsAt_done (t := ⟨rest, item.location, docs, errors⟩)
      (List.suffix_cons item rest) List.suffix_rfl fun _ _ _ _ => rfl
  exact hadvance.bind fun _ => hf

theorem halts_isNext {token : Token} (htoken : stops token = false) : Halts (isNext token) := by
  refine halts_peek (halts_pure false) ?_ fun _ _ _ _ _ => halts_pure _ _
  intro found hfound
  have hne : some found ≠ some token := fun h => ne_of_stops hfound htoken (Option.some.inj h)
  rw [beq_eq_false_iff_ne.mpr hne]

-- Looking for a token and then taking it is one step.
theorem halts_ifNext (token : Token) {f : Unit → Parser α} (htoken : stops token = false)
    (hf : Halts (f ())) (hq : Halts q) :
    Halts (isNext token >>= fun isNext => if isNext then advance >>= f else q) := by
  have hpeek : Halts (peek? >>= fun found =>
      if (found == some token) = true then advance >>= f else q) := by
    refine halts_peek hq ?_ ?_
    · intro found hfound
      have hne : some found ≠ some token := fun h => ne_of_stops hfound htoken (Option.some.inj h)
      rw [beq_eq_false_iff_ne.mpr hne]
      rfl
    · intro item rest last docs errors
      split
      · exact haltsAt_advance item rest last docs errors hf
      · exact hq _
  exact hpeek

theorem halts_skip {token : Token} (htoken : stops token = false) : Halts (skip token) :=
  halts_ifNext token htoken (halts_pure true) (halts_pure false)

-- A token that is taken and then turned down if it is one that stops a statement.
theorem halts_take {expected : Expectation} {f : Token × Location → Parser β}
    (hstop : ∀ token location, stops token = true →
      f (token, location) = throw (.unexpectedToken expected location))
    (hf : ∀ token location, Halts (f (token, location))) : Halts (take expected >>= f) := by
  rintro ⟨_ | ⟨item, rest⟩, last, docs, errors⟩
  · refine ⟨fun stop => .taken (.unexpectedToken expected stop.location) errors, ?_,
      fun _ _ => List.suffix_rfl, by rintro _ _ _ _ _ _ ⟨⟩⟩
    intro stop h docs more
    obtain ⟨token, htoken, hstops⟩ := h.exists_token
    have htake : take expected ⟨stop :: more, last, docs, errors⟩ =
        .ok (token, stop.location) ⟨more, stop.location, docs, errors⟩ := by
      obtain ⟨content, location⟩ := stop
      cases content with
      | ok found =>
          cases htoken
          rfl
      | error error => cases htoken
    rw [Stream.followedBy_mk, List.nil_append, bind_of_ok htake, hstop token stop.location hstops]
    rfl
  · obtain ⟨content, location⟩ := item
    have hadvance {g : Unit → Parser β} (hg : Halts (g ())) :
        HaltsAt ⟨⟨content, location⟩ :: rest, last, docs, errors⟩ (advance >>= g) :=
      haltsAt_advance _ rest last docs errors hg
    cases content with
    | ok token =>
        exact (hadvance (g := fun _ => f (token, location)) (hf token location)).of_eq
          fun _ _ _ _ => rfl
    | error error =>
        exact (hadvance (g := fun _ => throw (.lexical error expected location))
          (halts_throw _)).of_eq fun _ _ _ _ => rfl

theorem halts_expect {token : Token} {expected : Expectation} (htoken : stops token = false) :
    Halts (expect token expected) := by
  apply halts_take
  · intro found location hfound
    have hne := ne_of_stops hfound htoken
    simp only [ne_eq, hne, not_false_eq_true, if_true]
  · intro found location
    dsimp only
    split
    · exact halts_throw _
    · exact halts_pure ()

theorem halts_identifier {expected : Expectation} : Halts (identifier expected) := by
  apply halts_take
  · intro found location hfound
    rcases eq_of_stops hfound with rfl | rfl <;> rfl
  · intro found location
    cases found with
    | identifier name => exact halts_pure _
    | _ => exact halts_throw _

theorem halts_separated {closing : Symbol} {thing : Parser α}
    [Moves (fun s t => t.items <:+ s.items) thing] (hclosing : stops (.symbol closing) = false)
    (hthing : Halts thing) : Halts (separated closing thing) := by
  rw [separated_eq]
  refine halts_iterate (fun things => ?_) (advances_anotherThing closing thing) []
  apply (halts_isNext hclosing).bind
  intro isClosing
  cases isClosing with
  | true => exact halts_pure _
  | false =>
      apply hthing.bind
      intro x
      apply (halts_skip rfl).bind
      intro isComma
      cases isComma with
      | true => exact halts_pure _
      | false => exact halts_pure _

end Rules

end Parser

-- No operator is a token that stops a statement.
theorem lookup_of_stops {table : List (Token × BinaryOp)} (htable : .operators table ∈ levels)
    (token : Token) (h : stops token = true) : table.lookup token = none := by
  simp only [levels, tightLevels, List.mem_cons, List.not_mem_nil, Level.operators.injEq,
    reduceCtorEq, or_false, false_or] at htable
  rcases htable with rfl | rfl | rfl | rfl | rfl | rfl | rfl | rfl | rfl | rfl | rfl | rfl | rfl <;>
    rcases eq_of_stops h with rfl | rfl <;> rfl

structure Nested.Halts (nested : Nested) : Prop where
  expression : Parser.Halts nested.expression
  operand : Parser.Halts nested.operand
  assigned : Parser.Halts nested.assigned

section Expressions

variable {nested : Nested} [Nested.Moves (fun s t => t.items <:+ s.items) nested]
  (h : nested.Halts)
include h

-- Arguments are read only where a parenthesis is seen.
theorem halts_ifArguments {α : Type} {f : List Expr → Parser α} {q : Parser α}
    (hf : ∀ arguments, Halts (f arguments)) (hq : Halts q) :
    Halts (isNext (.symbol .parenLeft) >>= fun isCall =>
      if isCall then arguments nested >>= f else q) := by
  have hrest : Halts (do
      let arguments ← separated .parenRight nested.expression
      expectSymbol .parenRight .commaOrRightParenthesis
      f arguments) := by
    apply (halts_separated rfl h.expression).bind
    intro arguments
    exact (halts_expect rfl).bind fun _ => hf arguments
  have hadvance := halts_ifNext (.symbol .parenLeft) (f := fun _ => _) rfl hrest hq
  simpa only [arguments, bind_assoc, pure_bind] using hadvance

omit [Nested.Moves (fun s t => t.items <:+ s.items) nested] in
theorem halts_arrayItem : Halts (arrayItem nested) := by
  apply h.expression.bind
  intro first
  apply (halts_skip rfl).bind
  intro isKeyed
  cases isKeyed with
  | true => exact h.expression.bind fun _ => halts_pure _
  | false => exact halts_pure _

theorem halts_arrayItems {closing : Symbol} (hclosing : stops (.symbol closing) = false) :
    Halts (arrayItems nested closing) := by
  apply (halts_separated hclosing (halts_arrayItem h)).bind
  intro items
  exact (halts_expect hclosing).bind fun _ => halts_pure _

theorem halts_restOfName (name : Identifier) : Halts (restOfName nested name) := by
  apply halts_ifArguments h
  · exact fun _ => halts_last.bind fun _ => halts_pure _
  · apply (halts_skip rfl).bind
    intro isMember
    cases isMember with
    | false => exact halts_pure _
    | true =>
        apply halts_identifier.bind
        intro member
        apply halts_ifArguments h
        · exact fun _ => halts_last.bind fun _ => halts_pure _
        · exact halts_pure _

omit h [Nested.Moves (fun s t => t.items <:+ s.items) nested] in
theorem halts_ownerName : Halts ownerName := by
  apply (halts_skip rfl).bind
  intro isStatic
  cases isStatic with
  | true => exact halts_last.bind fun _ => halts_pure _
  | false => exact halts_identifier

theorem halts_newObject (start : Location) : Halts (newObject nested start) := by
  apply halts_ownerName.bind
  intro owner
  apply halts_ifArguments h
  · exact fun _ => halts_last.bind fun _ => halts_pure _
  · exact (halts_pure []).bind fun _ => halts_last.bind fun _ => halts_pure _

theorem halts_operandOf (token : Token) (location : Location) :
    Halts (operandOf nested (token, location)) := by
  cases token with
  | symbol symbol =>
      cases symbol with
      | parenLeft =>
          exact h.expression.bind fun _ => (halts_expect rfl).bind fun _ => halts_pure _
      | bracketLeft =>
          exact (halts_arrayItems h rfl).bind fun _ => halts_last.bind fun _ => halts_pure _
      | _ => exact halts_throw _
  | keyword keyword =>
      cases keyword with
      | New => exact halts_newObject h location
      | Static => exact halts_restOfName h _
      | _ => exact halts_throw _
  | identifier name =>
      rw [operandOf_identifier]
      split
      · apply (halts_skip rfl).bind
        intro isArray
        cases isArray with
        | true =>
            exact (halts_arrayItems h rfl).bind fun _ => halts_last.bind fun _ => halts_pure _
        | false => exact halts_restOfName h _
      · exact halts_restOfName h _
  | string text interpolated => cases interpolated <;> exact halts_pure _
  | var | int | float | bool | null => exact halts_pure _
  | _ => exact halts_throw _

-- In front of the item that stops it an operand is missing.
theorem halts_primary : Halts (primary nested) := by
  rintro ⟨_ | ⟨item, rest⟩, last, docs, errors⟩
  · refine ⟨fun stop => .done (.invalid stop.location)
      ⟨[], last, docs, .unexpectedToken .expression stop.location :: errors⟩, ?_, ?_, ?_⟩
    · intro stop hstop docs more
      obtain ⟨token, htoken, hstops⟩ := hstop.exists_token
      have hends : stop.token?.any endsOperand := by
        rw [htoken]
        exact endsOperand_of_stops hstops
      exact primary_of_ends hends more last docs errors
    · exact fun _ _ => ⟨List.suffix_rfl, List.suffix_cons _ _⟩
    · rintro _ _ _ _ _ _ ⟨⟩ herrors
      exact absurd herrors (List.cons_ne_self _ _)
  · by_cases hends : item.token?.any endsOperand
    · exact haltsAt_done (t := ⟨item :: rest, last, docs, _ :: errors⟩)
        List.suffix_rfl (List.suffix_cons _ _) fun stop docs more _ =>
          primary_of_ends hends (rest ++ stop :: more) last docs errors
    · have hoperand : Halts (take .expression >>= operandOf nested) := by
        refine halts_take ?_ (halts_operandOf h)
        intro token location hstops
        rcases eq_of_stops hstops with rfl | rfl <;> rfl
      exact (hoperand _).of_eq fun stop docs more _ =>
        primary_of_not_ends hends (rest ++ stop :: more) last docs errors

theorem halts_member (object : Expr) : Halts (member nested object) := by
  apply halts_identifier.bind
  intro name
  apply halts_ifArguments h
  · exact fun _ => halts_last.bind fun _ => halts_pure _
  · exact halts_pure _

omit [Nested.Moves (fun s t => t.items <:+ s.items) nested] in
theorem halts_subscript (container : Expr) : Halts (subscript nested container) := by
  apply (halts_skip rfl).bind
  intro isSlot
  cases isSlot with
  | true => exact halts_last.bind fun _ => halts_pure _
  | false =>
      apply h.expression.bind
      intro index
      exact (halts_expect rfl).bind fun _ => halts_last.bind fun _ => halts_pure _

theorem halts_access? (object : Expr) : Halts (access? nested object) := by
  apply (halts_skip rfl).bind
  intro isArrow
  cases isArrow with
  | true => exact (halts_member h object).bind fun _ => halts_pure _
  | false =>
      apply (halts_skip rfl).bind
      intro isBracket
      cases isBracket with
      | true => exact (halts_subscript h object).bind fun _ => halts_pure _
      | false => exact halts_pure _

omit h [Nested.Moves (fun s t => t.items <:+ s.items) nested] in
theorem halts_checkHeight (height : Nat) : Halts (checkHeight height) := by
  unfold checkHeight
  split
  · exact halts_tooDeep
  · exact halts_pure ()

theorem halts_accesses : Halts (accesses nested) := by
  rw [accesses_eq]
  apply (halts_primary h).bind
  intro first
  refine halts_iterate ?_ advances_anotherAccess _
  rintro ⟨object, height⟩
  apply (halts_access? h object).bind
  intro result
  cases result with
  | none => exact halts_pure _
  | some result => exact (halts_checkHeight _).bind fun _ => halts_pure _

theorem halts_power : Halts (power nested) := by
  apply (halts_accesses h).bind
  intro base
  apply (halts_skip rfl).bind
  intro isPower
  cases isPower with
  | true => exact halts_last.bind fun _ => h.operand.bind fun _ => halts_pure _
  | false => exact halts_pure _

theorem halts_unary : Halts (unary nested) := by
  refine halts_peek (halts_power h) ?_ ?_
  · intro token hstops
    rcases eq_of_stops hstops with rfl | rfl <;> rfl
  · intro item rest last docs errors
    have hoperand {f : Location → Expr → Expr} : Halts (do
        let start ← Parser.last
        let operand ← nested.operand
        return f start operand) :=
      halts_last.bind fun _ => h.operand.bind fun _ => halts_pure _
    split
    · exact haltsAt_advance item rest last docs errors hoperand
    · split
      · exact haltsAt_advance item rest last docs errors hoperand
      · exact halts_power h _

omit h [Nested.Moves (fun s t => t.items <:+ s.items) nested] in
theorem halts_operation {table : List (Token × BinaryOp)} {operand : Parser Expr}
    [Moves (fun s t => t.items <:+ s.items) operand]
    (htable : ∀ token, stops token = true → table.lookup token = none) (hoperand : Halts operand) :
    Halts (operation table operand) := by
  rw [operation_eq]
  apply hoperand.bind
  refine halts_iterate ?_ (advances_anotherOperation table operand)
  intro left
  refine halts_peek (halts_pure (.inr left)) ?_ ?_
  · intro token hstops
    rw [Option.bind_some, htable token hstops]
  · intro item rest last docs errors
    split
    · exact halts_pure _ _
    · apply haltsAt_advance item rest last docs errors
      apply halts_last.bind
      intro opLocation
      apply hoperand.bind
      intro right
      exact (halts_checkHeight _).bind fun _ => halts_pure _

omit [Nested.Moves (fun s t => t.items <:+ s.items) nested] in
theorem halts_assignment {operand : Parser Expr} (hoperand : Halts operand) :
    Halts (assignment nested operand) := by
  apply hoperand.bind
  intro target
  refine halts_peek (halts_pure target) ?_ ?_
  · intro token hstops
    rcases eq_of_stops hstops with rfl | rfl <;> rfl
  · intro item rest last docs errors
    split
    · exact halts_pure _ _
    · apply haltsAt_advance item rest last docs errors
      apply (halts_skip rfl).bind
      intro _
      apply h.assigned.bind
      intro value
      exact (halts_checkHeight _).bind fun _ => halts_pure _

theorem halts_climb {some : List Level} (hsome : some ⊆ levels) : Halts (climb nested some) := by
  induction some with
  | nil => exact halts_unary h
  | cons level tighter ih =>
      obtain ⟨hlevel, htighter⟩ := List.cons_subset.mp hsome
      cases level with
      | assignments => exact halts_assignment h (ih htighter)
      | operators table => exact halts_operation (lookup_of_stops hlevel) (ih htighter)

omit h [Nested.Moves (fun s t => t.items <:+ s.items) nested] in
theorem halts_nestedAt (depth : Nat) : (nestedAt depth).Halts := by
  induction depth with
  | zero => exact ⟨halts_tooDeep, halts_tooDeep, halts_tooDeep⟩
  | succ depth ih =>
      refine ⟨halts_climb ih (List.Subset.refl _), halts_unary ih, halts_climb ih ?_⟩
      exact fun _ hlevel => List.mem_cons_of_mem _ (List.mem_cons_of_mem _
        (List.mem_cons_of_mem _ hlevel))

end Expressions

section Statements

variable {parts : Parts}

theorem expect_of_ne {found token : Token} (expected : Expectation) {item : Item}
    (hitem : item.token? = some found) (h : found ≠ token) (rest : List Item) (last : Location)
    (docs : Docs) (errors : List SyntaxError) :
    expect token expected ⟨item :: rest, last, docs, errors⟩ =
      .error (.unexpectedToken expected item.location) ⟨rest, item.location, docs, errors⟩ := by
  have htake : take expected ⟨item :: rest, last, docs, errors⟩ = _ :=
    take_cons rfl (content_of_token? hitem)
  rw [expect, bind_of_ok htake]
  simp only [ne_eq, h, not_false_eq_true, if_true]
  rfl

theorem terminator_of_closeTag {item : Item} (h : item.token? = some .closeTag) (rest : List Item)
    (last : Location) (docs : Docs) (errors : List SyntaxError) :
    terminator ⟨item :: rest, last, docs, errors⟩ = .ok () ⟨item :: rest, last, docs, errors⟩ := by
  rw [eq_of_token? h]
  rfl

theorem terminator_of_semicolon {item : Item} (h : item.token? = some (.symbol .semicolon))
    (rest : List Item) (last : Location) (docs : Docs) (errors : List SyntaxError) :
    terminator ⟨item :: rest, last, docs, errors⟩ = .ok () ⟨rest, item.location, docs, errors⟩ := by
  rw [eq_of_token? h]
  rfl

-- Without an alternative in front a conditional is complete.
theorem anotherClause_of_follows {items : List Item} (hitems : Follows items)
    (clauses : List Clause) (last : Location) (docs : Docs) (errors : List SyntaxError) :
    anotherClause parts clauses ⟨items, last, docs, errors⟩ =
      .ok (.inr (clauses.reverse, none)) ⟨items, last, docs, errors⟩ := by
  cases items with
  | nil => rfl
  | cons item rest =>
      obtain ⟨helseif, helse⟩ := hitems item rfl
      change (skip (.keyword .Elseif) >>= _) ⟨item :: rest, last, docs, errors⟩ = _
      rw [bind_of_ok (skip_of_ne helseif rest last docs errors)]
      change (skip (.keyword .Else) >>= _) ⟨item :: rest, last, docs, errors⟩ = _
      rw [bind_of_ok (skip_of_ne helse rest last docs errors)]
      rfl

theorem halts_skipWhile {p : Token → Bool} (hp : ∀ token, stops token = true → p token = false) :
    Halts (skipWhile p) := by
  rw [skipWhile_eq]
  refine halts_iterate (fun _ => ?_) (advances_anotherSkip p) ()
  refine halts_peek (halts_pure (.inr ())) ?_ ?_
  · intro token hstops
    simp only [Option.any_some, hp token hstops, Bool.false_eq_true, if_false]
  · intro item rest last docs errors
    split
    · exact haltsAt_advance item rest last docs errors (halts_pure _)
    · exact halts_pure _ _

theorem halts_modifiers {modifier? : Token → Option Modifier}
    (h : ∀ token, stops token = true → modifier? token = none) : Halts (modifiers modifier?) := by
  refine halts_iterate (fun modifiers => ?_) (advances_anotherModifier modifier?) []
  refine halts_peek (halts_pure (.inr modifiers.reverse)) ?_ ?_
  · intro token hstops
    rw [Option.bind_some, h token hstops]
  · intro item rest last docs errors
    split
    · exact haltsAt_advance item rest last docs errors (halts_pure _)
    · exact halts_pure _ _

theorem halts_returnType : Halts returnType := by
  apply (halts_skip rfl).bind
  intro isTyped
  cases isTyped with
  | true =>
      apply halts_skipWhile
      intro token hstops
      rcases eq_of_stops hstops with rfl | rfl <;> rfl
  | false => exact halts_pure ()

theorem halts_parentClass? : Halts parentClass? := by
  apply (halts_skip rfl).bind
  intro isExtended
  cases isExtended with
  | true => exact halts_identifier.bind fun _ => halts_pure _
  | false => exact halts_pure _

variable (h : Halts parts.expression)
include h

theorem halts_condition : Halts (condition parts) := by
  apply (halts_expect rfl).bind
  intro _
  apply h.bind
  intro condition
  exact (halts_expect rfl).bind fun _ => halts_pure _

theorem halts_moreExpressions [Parts.Moves (fun s t => t.items <:+ s.items) parts] (first : Expr) :
    Halts (iterate (anotherExpression parts) [first]) := by
  refine halts_iterate (fun expressions => ?_) advances_anotherExpression _
  apply (halts_skip rfl).bind
  intro isComma
  cases isComma with
  | true => exact h.bind fun _ => halts_pure _
  | false => exact halts_pure _

omit h in
-- The place in front is read before anything else. It does not matter where a stop is refused.
theorem halts_located {α : Type} {f : Option Location → Parser α} {expected : Expectation}
    (hf : ∀ start, Halts (f start))
    (hrefused : ∀ token, stops token = true → ∀ start location rest last docs errors,
      f start ⟨⟨.ok token, location⟩ :: rest, last, docs, errors⟩ =
        .error (.unexpectedToken expected location) ⟨rest, location, docs, errors⟩) :
    Halts (location? >>= f) := by
  rintro ⟨_ | ⟨item, rest⟩, last, docs, errors⟩
  · refine ⟨fun stop => .taken (.unexpectedToken expected stop.location) errors, ?_,
      fun _ _ => List.suffix_rfl, by rintro _ _ _ _ _ _ ⟨⟩⟩
    intro stop hstop docs more
    obtain ⟨token, htoken, hstops⟩ := hstop.exists_token
    rw [eq_of_token? htoken]
    exact hrefused token hstops (some stop.location) stop.location more last docs errors
  · exact (hf (some item.location) ⟨item :: rest, last, docs, errors⟩).of_eq fun _ _ _ _ => rfl

theorem halts_parameter : Halts (parameter parts) := by
  have hstop {p : Token → Bool} (hsemicolon : p (.symbol .semicolon) = false)
      (hclose : p .closeTag = false) (token : Token) (hstops : stops token = true) :
      p token = false := by
    rcases eq_of_stops hstops with rfl | rfl
    · exact hsemicolon
    · exact hclose
  rw [parameter]
  apply halts_located
  · intro start
    apply (halts_skipWhile (hstop rfl rfl)).bind
    intro _
    apply (halts_skipWhile (hstop rfl rfl)).bind
    intro _
    apply halts_take
    · intro token location hstops
      rcases eq_of_stops hstops with rfl | rfl <;> rfl
    · intro token location
      cases token with
      | var name =>
          apply (halts_skip rfl).bind
          intro hasDefault
          cases hasDefault with
          | true =>
              simp only [if_true, map_eq_pure_bind, bind_assoc, pure_bind]
              exact h.bind fun _ => (halts_spanFrom start).bind fun _ => halts_pure _
          | false =>
              exact (halts_pure none).bind fun _ => (halts_spanFrom start).bind fun _ => halts_pure _
      | _ => exact halts_throw _
  · intro token hstops start location rest last docs errors
    rcases eq_of_stops hstops with rfl | rfl <;> rfl

theorem halts_parameters [Parts.Moves (fun s t => t.items <:+ s.items) parts] :
    Halts (parameters parts) := by
  apply (halts_expect rfl).bind
  intro _
  apply (halts_separated rfl (halts_parameter h)).bind
  intro parameters
  exact (halts_expect rfl).bind fun _ => halts_pure _

theorem halts_signature [Parts.Moves (fun s t => t.items <:+ s.items) parts]
    (doc : Option DocComment) (expected : Expectation) : Halts (signature parts doc expected) := by
  apply (halts_skip rfl).bind
  intro _
  apply halts_identifier.bind
  intro name
  apply (halts_parameters h).bind
  intro parameters
  exact halts_returnType.bind fun _ => halts_pure _

end Statements

end PhpLint.Syntax
