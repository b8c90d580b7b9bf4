import PhpLint.Proofs.Syntax.Movement
import PhpLint.Proofs.Syntax.Regions

namespace PhpLint

theorem Location.cover_self (a : Location) : a.cover a = a := by
  simp [cover]

-- The token that a declaration starts with stands for its first modifier, or is its keyword
-- where it has none.
def isFirstWord (modifier? : Token → Option Modifier) (keyword : Keyword) :
    List Modifier → Token → Bool
  | [], token => token == .keyword keyword
  | modifier :: _, token => modifier? token == some modifier

def Region.startsWith (token : Token) : Region → Bool
  | stmt (.functionDecl ..) => token == .keyword .Function
  | stmt (.classDecl header ..) =>
    isFirstWord Syntax.classModifier? .Class header.modifiers token
  | method m => isFirstWord Syntax.methodModifier? .Function m.modifiers token
  | _ => false

namespace Syntax

open EStateM (after_of_ok bind_eq_ok_iff)
open PhpLint.Syntax.Parser

-- The comment of a declaration is the one filed under the item it starts with.
structure IsHeadedBy (docs : Docs) (item : Item) (r : Region) : Prop where
  doc : r.doc? = docs.get? item.location.start
  token : ∃ token, item.token? = some token ∧ r.startsWith token

-- How regions come about between a stream and a later one, side by side in the order of
-- the source: items and comments are taken, a placeholder is made where an error is
-- reported, and what has come about so far is made into one region, which reaches from the
-- first item or from the first part of it up to the last item that was taken or to its last
-- part.
inductive Lays : Stream → List Region → Stream → Prop where
  | refl (s : Stream) : Lays s [] s
  | trans {s t u : Stream} {v w : List Region} : Lays s v t → Lays t w u → Lays s (v ++ w) u
  | taken (item : Item) (rest : List Item) (last : Location) (docs : Docs)
      (errors : List SyntaxError) :
      Lays ⟨item :: rest, last, docs, errors⟩ [] ⟨rest, item.location, docs, errors⟩
  -- A comment that is taken goes to no declaration, as its item is passed over.
  | withdrawn {item : Item} {rest : List Item} {last : Location} {docs : Docs}
      {errors : List SyntaxError} {t : Stream} :
      Lays ⟨item :: rest, last, docs.remove item.location.start, errors⟩ [] t →
      t.items <:+ rest → Lays ⟨item :: rest, last, docs, errors⟩ [] t
  | missing (item : Item) (rest : List Item) (last : Location) (docs : Docs)
      (errors : List SyntaxError) :
      Lays ⟨item :: rest, last, docs, errors⟩ [.expr (.invalid item.location)]
        ⟨item :: rest, last, docs, .unexpectedToken .expression item.location :: errors⟩
  -- After the item in front, which belongs to none of the parts.
  | opened {item : Item} {rest : List Item} {last : Location} {docs : Docs}
      {errors : List SyntaxError} {r : Region} {v : List Region} {t : Stream} :
      Lays ⟨rest, item.location, docs, errors⟩ v t → r.inner = v → r.isPlain →
      r.location = item.location.cover t.last → r.isDeclaration = false →
      Lays ⟨item :: rest, last, docs, errors⟩ [r] t
  -- The same for a declaration, which takes its comment first.
  | declared {item : Item} {rest : List Item} {last : Location} {docs : Docs}
      {errors : List SyntaxError} {r : Region} {v : List Region} {t : Stream} :
      Lays ⟨rest, item.location, docs.remove item.location.start, errors⟩ v t → r.inner = v →
      r.isPlain → r.location = item.location.cover t.last → r.isDeclaration →
      IsHeadedBy docs item r → Lays ⟨item :: rest, last, docs, errors⟩ [r] t
  -- The item in front may belong to the first part.
  | front {item : Item} {rest : List Item} {last : Location} {docs : Docs}
      {errors : List SyntaxError} {r : Region} {v : List Region} {t : Stream} :
      Lays ⟨item :: rest, last, docs, errors⟩ v t → t.items <:+ rest → r.inner = v → r.isPlain →
      (∀ e, r ≠ .expr e) → r.location = item.location.cover t.last →
      r.isDeclaration = false →
      Lays ⟨item :: rest, last, docs, errors⟩ [r] t
  -- The item in front is a name.
  | called {item : Item} {rest : List Item} {last : Location} {docs : Docs}
      {errors : List SyntaxError} {e : Expr} {name : Identifier} {v : List Region} {t : Stream} :
      Lays ⟨rest, item.location, docs, errors⟩ v t → e.inner = .name name :: v →
      name.location = item.location → e.location = item.location.cover t.last →
      Lays ⟨item :: rest, last, docs, errors⟩ [.expr e] t
  | prefixed {item : Item} {rest : List Item} {last : Location} {docs : Docs}
      {errors : List SyntaxError} {e operand : Expr} {t : Stream} :
      Lays ⟨rest, item.location, docs, errors⟩ [.expr operand] t → e.inner = [.expr operand] →
      (Region.expr e).isPlain → e.location = item.location.cover operand.location →
      Lays ⟨item :: rest, last, docs, errors⟩ [.expr e] t
  | extended {s : Stream} {item : Item} {rest : List Item} {last : Location} {docs : Docs}
      {errors : List SyntaxError} {e first : Expr} {v : List Region} {t : Stream} :
      Lays s [.expr first] ⟨item :: rest, last, docs, errors⟩ →
      Lays ⟨rest, item.location, docs, errors⟩ v t → e.inner = .expr first :: v →
      (Region.expr e).isPlain → e.location = first.location.cover t.last → Lays s [.expr e] t
  | joined {s : Stream} {e : Expr} {first final : Region} {v : List Region} {t : Stream} :
      Lays s (first :: (v ++ [final])) t → e.inner = first :: (v ++ [final]) →
      (Region.expr e).isPlain → e.location = first.location.cover final.location →
      Lays s [.expr e] t

instance : Passage fun s t => Lays s [] t where
  refl := .refl
  trans _ _ _ := .trans
  taken := .taken

theorem Lays.suffix {s t : Stream} {v : List Region} (h : Lays s v t) : t.items <:+ s.items := by
  induction h with
  | refl | missing => exact List.suffix_rfl
  | withdrawn _ hpast => exact hpast.trans (List.suffix_cons _ _)
  | trans _ _ hst htu => exact htu.trans hst
  | taken => exact List.suffix_cons _ _
  | front _ _ _ _ _ _ _ ih | joined _ _ _ _ ih => exact ih
  | opened _ _ _ _ _ ih | declared _ _ _ _ _ _ ih | called _ _ _ _ ih | prefixed _ _ _ _ ih =>
      exact ih.trans (List.suffix_cons _ _)
  | extended _ _ _ _ _ hst htu => exact (htu.trans (List.suffix_cons _ _)).trans hst

-- What holds between a stream and any later one, whatever is built on the way.
theorem Lays.passes {R : Stream → Stream → Prop} [hR : Passage R] [hM : Motion R] [hF : Filing R]
    {s t : Stream} {v : List Region} (h : Lays s v t) : R s t := by
  induction h with
  | refl => exact hR.refl _
  | trans _ _ hst htu => exact hR.trans _ _ _ hst htu
  | taken => exact hR.taken ..
  | withdrawn _ hpast ih => exact hF.withdrawn ih hpast
  | missing => exact hM.missing ..
  | opened _ _ _ _ _ ih | called _ _ _ _ ih | prefixed _ _ _ _ ih =>
      exact hR.trans _ _ _ (hR.taken ..) ih
  | declared h _ _ _ _ _ ih => exact hF.withdrawn (hR.trans _ _ _ (hR.taken ..) ih) h.suffix
  | front _ _ _ _ _ _ _ ih | joined _ _ _ _ ih => exact ih
  | extended _ _ _ _ _ hst htu =>
      exact hR.trans _ _ _ hst (hR.trans _ _ _ (hR.taken ..) htu)

-- Nothing comes about without an item.
theorem Lays.items_ne_nil {s t : Stream} {v : List Region} (h : Lays s v t) (hv : v ≠ []) :
    s.items ≠ [] := by
  induction h with
  | refl | taken | withdrawn => contradiction
  | @trans s t u v w hst _ ihst ihtu =>
      by_cases hempty : v = []
      · have hw : w ≠ [] := by simpa [hempty] using hv
        exact fun hs => ihtu hw (List.suffix_nil.mp (hs ▸ hst.suffix))
      · exact ihst hempty
  | extended _ _ _ _ _ ih | joined _ _ _ _ ih => exact ih (by simp)
  | missing | opened | declared | front | called | prefixed => simp

-- What is in front of an item that is taken later.
theorem Lays.exists_front {s : Stream} {v : List Region} {item : Item} {rest : List Item}
    {last : Location} {docs : Docs} {errors : List SyntaxError}
    (h : Lays s v ⟨item :: rest, last, docs, errors⟩) :
    ∃ item' rest' last' docs' errors',
      s = ⟨item' :: rest', last', docs', errors'⟩ ∧ rest <:+ rest' := by
  obtain ⟨items, last', docs', errors'⟩ := s
  cases items with
  | nil => exact absurd (List.suffix_nil.mp h.suffix) (List.cons_ne_nil item rest)
  | cons item' rest' =>
      refine ⟨item', rest', last', docs', errors', rfl, ?_⟩
      rcases List.suffix_cons_iff.mp h.suffix with heq | hsuffix
      · cases heq
        exact List.suffix_rfl
      · exact (List.suffix_cons item rest).trans hsuffix

-- A region that is a single item.
theorem Lays.leaf {item : Item} {rest : List Item} {last : Location} {docs : Docs}
    {errors : List SyntaxError} {r : Region} (hinner : r.inner = []) (hplain : r.isPlain)
    (hdeclaration : r.isDeclaration = false) (hlocation : r.location = item.location) :
    Lays ⟨item :: rest, last, docs, errors⟩ [r] ⟨rest, item.location, docs, errors⟩ :=
  .opened (.refl _) hinner hplain (by rw [hlocation, Location.cover_self]) hdeclaration

-- A parser that succeeds has laid the regions of its result.
def Parser.Builds {α : Type} (p : Parser α) (content : α → List Region) : Prop :=
  ∀ ⦃s a t⦄, p s = .ok a t → Lays s (content a) t

-- What holds after the parser succeeds on a stream.
def Parser.Gives {α : Type} (s : Stream) (p : Parser α) (Q : α → Stream → Prop) : Prop :=
  ∀ ⦃a t⦄, p s = .ok a t → Q a t

-- The same on any stream up to which the given regions have been laid.
def Parser.Extends {α : Type} (s₀ : Stream) (built : List Region) (p : Parser α)
    (Q : α → Stream → Prop) : Prop :=
  ∀ ⦃s⦄, Lays s₀ built s → Gives s p Q

namespace Parser

section Rules

variable {α β σ : Type} {s₀ : Stream} {built : List Region} {Q : β → Stream → Prop}

theorem Extends.builds {p : Parser α} {content : α → List Region}
    (h : ∀ s, Extends s [] p fun a t => Lays s (content a) t) : Builds p content :=
  fun s _ _ hp => h s (.refl s) hp

theorem Gives.builds {p : Parser α} {content : α → List Region}
    (h : ∀ s, Gives s p fun a t => Lays s (content a) t) : Builds p content :=
  h

theorem Extends.gives {p : Parser β} {s : Stream} (h : Extends s [] p Q) : Gives s p Q :=
  h (.refl s)

-- There is an item if there is a token.
theorem gives_peek {s : Stream} {f : Option Token → Parser β}
    (hf : ∀ token? : Option Token,
      (token?.isSome → ∃ item rest last docs errors, s = ⟨item :: rest, last, docs, errors⟩) →
      Gives s (f token?) Q) : Gives s (peek? >>= f) Q := by
  refine hf (s.items.head?.bind Lexeme.token?) fun htoken => ?_
  obtain ⟨items, last, docs, errors⟩ := s
  cases items with
  | nil => cases htoken
  | cons item rest => exact ⟨item, rest, last, docs, errors, rfl⟩

theorem gives_advance {item : Item} {rest : List Item} {place : Location} {docs : Docs}
    {errors : List SyntaxError} {f : Location → Parser β}
    (hf : Gives ⟨rest, item.location, docs, errors⟩ (f item.location) Q) :
    Gives ⟨item :: rest, place, docs, errors⟩ (do advance; f (← last)) Q :=
  hf

-- The regions so far are made into one.
theorem Extends.lays (region : β → Region) {p : Parser β} {s s₁ t : Stream} {b : β}
    (hp : Extends s₀ built p fun b t => Lays s₁ [region b] t) (hs : Lays s₀ built s)
    (h : p s = .ok b t) : Lays s₁ [region b] t :=
  hp hs h

theorem Builds.extends {p : Parser α} {content : α → List Region} (hp : Builds p content) :
    Extends s₀ built p fun a t => Lays s₀ (built ++ content a) t :=
  fun _ hs _ _ h => hs.trans (hp h)

theorem Extends.bind {p : Parser α} {f : α → Parser β} {w : α → List Region}
    (hp : Extends s₀ built p fun a t => Lays s₀ (w a) t)
    (hf : ∀ a, Extends s₀ (w a) (f a) Q) : Extends s₀ built (p >>= f) Q := by
  intro s hs b u h
  obtain ⟨a, t, hpt, hfu⟩ := bind_eq_ok_iff.mp h
  exact hf a (hp hs hpt) hfu

theorem Builds.andThen {p : Parser α} {f : α → Parser β} {between : α → List Region}
    (hp : Builds p between) (hf : ∀ a, Extends s₀ (built ++ between a) (f a) Q) :
    Extends s₀ built (p >>= f) Q :=
  hp.extends.bind hf

theorem Builds.ofSome {p : Parser α} {f : Option α → Parser β} {between : α → List Region}
    (hp : Builds p between) (hf : ∀ a, Extends s₀ (built ++ between a) (f (some a)) Q) :
    Extends s₀ built (some <$> p >>= f) Q := by
  simpa using hp.andThen hf

theorem Extends.ofNone {f : Option α → Parser β} (hf : Extends s₀ built (f none) Q) :
    Extends s₀ built (pure none >>= f) Q :=
  hf

theorem Extends.ofGet {f : Stream → Parser β} (hf : ∀ s, Extends s₀ built (f s) Q) :
    Extends s₀ built (get >>= f) Q :=
  fun s hs _ _ h => hf s hs h

theorem extends_pure {b : β} (h : ∀ t, Lays s₀ built t → Q b t) :
    Extends s₀ built (pure b) Q := by
  rintro s hs _ _ ⟨⟩
  exact h s hs

-- The place of a region is known when it ends.
theorem extends_last {f : Location → β} (h : ∀ t, Lays s₀ built t → Q (f t.last) t) :
    Extends s₀ built (do return f (← last)) Q := by
  rintro s hs _ _ ⟨⟩
  exact h s hs

theorem extends_span {start : Location} {f : Location → β}
    (h : ∀ t, Lays s₀ built t → Q (f (start.cover t.last)) t) :
    Extends s₀ built (do return f (← spanFrom (some start))) Q := by
  rintro s hs _ _ ⟨⟩
  exact h s hs

theorem extends_throw {error : SyntaxError} : Extends s₀ built (throw error : Parser β) Q := by
  rintro _ _ _ _ ⟨⟩

-- A parser that lays nothing.
theorem builds_quiet {p : Parser α} [hp : Moves (fun s t => Lays s [] t) p] :
    Builds p fun _ => [] := by
  intro s a t h
  have hst := hp.keeps s
  rwa [after_of_ok h] at hst

theorem Extends.after {p : Parser α} {f : α → Parser β} [Moves (fun s t => Lays s [] t) p]
    (hf : ∀ a, Extends s₀ built (f a) Q) : Extends s₀ built (p >>= f) Q := by
  refine builds_quiet.andThen fun a => ?_
  rw [List.append_nil]
  exact hf a

theorem builds_tooDeep {content : α → List Region} : Builds (tooDeep : Parser α) content :=
  Extends.builds fun _ => Extends.after fun _ => extends_throw

-- What holds between the state of a loop and its result. By induction on the rounds.
theorem gives_iterate {R : σ → Stream → β → Stream → Prop} {step : σ → Parser (σ ⊕ β)}
    (hstep : ∀ state s, Gives s (step state) fun result u =>
      Sum.elim (fun next => ∀ b t, R next u b t → R state s b t) (R state s · u) result)
    (start : σ) (s : Stream) : Gives s (Parser.iterate step start) (R start s) := by
  have hrounds (fuel : Nat) (state : σ) (s : Stream) :
      Gives s (rounds step fuel state) (R state s) := by
    induction fuel generalizing state s with
    | zero => rintro b t ⟨⟩
    | succ fuel ih =>
        intro b t h
        obtain ⟨result, u, hresult, h⟩ := bind_eq_ok_iff.mp h
        have hu := hstep state s hresult
        cases result with
        | inl next => exact hu b t (ih next u h)
        | inr b =>
            cases h
            exact hu
  exact hrounds _ start s

-- What has been laid is known from the state of the loop.
theorem extends_iterate (sofar : σ → List Region) {step : σ → Parser (σ ⊕ β)} {start : σ}
    (hstart : sofar start = built)
    (hstep : ∀ state, Extends s₀ (sofar state) (step state) fun result t =>
      Sum.elim (fun state => Lays s₀ (sofar state) t) (Q · t) result) :
    Extends s₀ built (Parser.iterate step start) Q := by
  intro s hs b t h
  rw [← hstart] at hs
  refine gives_iterate (R := fun state s b t => Lays s₀ (sofar state) s → Q b t)
    (fun state s result u h => ?_) start s h hs
  cases result with
  | inl next => exact fun b t hrest hs => hrest (hstep state hs h)
  | inr b => exact fun hs => hstep state hs h

-- The things so far are kept with the latest first.
theorem builds_separated {closing : Symbol} {thing : Parser α} {content : α → List Region}
    (hthing : Builds thing content) :
    Builds (separated closing thing) fun things => things.flatMap content := by
  refine Extends.builds fun s => extends_iterate (fun things => things.reverse.flatMap content)
    (by simp) fun things => Extends.after fun isClosed => ?_
  cases isClosed with
  | true => exact extends_pure fun _ ht => ht
  | false =>
      refine hthing.andThen fun a => Extends.after fun isMore => ?_
      cases isMore <;> exact extends_pure fun _ ht => by simpa using ht

end Rules

theorem builds_identifier {expected : Expectation} :
    Builds (identifier expected) fun name => [.name name] := by
  intro s name t h
  obtain ⟨item, rest, hs, hlocation, ht⟩ := exists_of_identifier h
  rw [hs, ht]
  exact .leaf rfl rfl rfl hlocation

end Parser

section Expressions

variable {nested : Nested}

structure Nested.Builds (nested : Nested) : Prop where
  expression : Parser.Builds nested.expression fun e => [.expr e]
  operand : Parser.Builds nested.operand fun e => [.expr e]
  assigned : Parser.Builds nested.assigned fun e => [.expr e]

theorem builds_arguments (hn : nested.Builds) :
    Builds (arguments nested) fun es => es.map .expr := by
  refine Extends.builds fun s => Extends.after fun _ => ?_
  refine (builds_separated hn.expression).andThen fun es => Extends.after fun _ => ?_
  refine extends_pure fun t ht => ?_
  rwa [List.map_eq_flatMap]

theorem builds_arrayItem (hn : nested.Builds) : Builds (arrayItem nested) ArrayItem.inner := by
  refine Extends.builds fun s => hn.expression.andThen fun first => Extends.after fun isKeyed => ?_
  cases isKeyed with
  | true => exact hn.expression.andThen fun value => extends_pure fun _ ht => ht
  | false => exact extends_pure fun _ ht => ht

theorem builds_arrayItems (hn : nested.Builds) (closing : Symbol) :
    Builds (arrayItems nested closing) fun items => items.flatMap ArrayItem.inner := by
  refine Extends.builds fun s => (builds_separated (builds_arrayItem hn)).andThen fun items => ?_
  exact Extends.after fun _ => extends_pure fun _ ht => ht

theorem builds_ownerName : Builds ownerName fun owner => [.name owner] := by
  intro s owner t h
  obtain ⟨isStatic, u, hskip, h⟩ := bind_eq_ok_iff.mp h
  cases isStatic with
  | true =>
      cases h
      obtain ⟨item, rest, hs, -, ht⟩ := exists_of_skip_true hskip
      rw [hs, ht]
      exact .leaf rfl rfl rfl rfl
  | false =>
      rw [← eq_of_skip_false hskip]
      exact builds_identifier h

section FirstItem

-- The item that the expression starts with has been taken.
variable {item : Item} {rest : List Item} {last : Location} {docs : Docs}
  {errors : List SyntaxError} {e : Expr} {t : Stream}

theorem lays_array {items : List ArrayItem} {style : ArrayStyle}
    (h : Lays ⟨rest, item.location, docs, errors⟩ (items.flatMap ArrayItem.inner) t) :
    Lays ⟨item :: rest, last, docs, errors⟩
      [.expr (.array items style (item.location.cover t.last))] t :=
  .opened h rfl rfl rfl rfl

theorem lays_restOfName (hn : nested.Builds) {name : Identifier}
    (hname : name.location = item.location)
    (h : restOfName nested name ⟨rest, item.location, docs, errors⟩ = .ok e t) :
    Lays ⟨item :: rest, last, docs, errors⟩ [.expr e] t := by
  obtain ⟨isCall, _, ⟨⟩, h⟩ := bind_eq_ok_iff.mp h
  split at h
  case isTrue =>
    refine Extends.lays .expr ((builds_arguments hn).andThen fun es => ?_) (.refl _) h
    exact extends_last fun t ht => .called ht rfl hname (by rw [Expr.location, hname])
  case isFalse =>
    obtain ⟨isMember, u, hskip, h⟩ := bind_eq_ok_iff.mp h
    have hu := builds_quiet hskip
    cases isMember with
    | true =>
        obtain ⟨member, s, hmember, h⟩ := bind_eq_ok_iff.mp h
        obtain ⟨isCall, _, ⟨⟩, h⟩ := bind_eq_ok_iff.mp h
        split at h
        case isTrue =>
          have hs := hu.trans (builds_identifier hmember)
          refine Extends.lays .expr ((builds_arguments hn).andThen fun es => ?_) hs h
          exact extends_last fun t ht => .called ht rfl hname (by rw [Expr.location, hname])
        case isFalse =>
          cases h
          obtain ⟨_, _, -, hlocation, ht⟩ := exists_of_identifier hmember
          have hlast : t.last = member.location := by rw [ht, hlocation]
          refine .opened (hu.trans (builds_quiet hmember)) rfl rfl ?_ rfl
          rw [Region.location, Expr.location, hname, hlast]
    | false =>
        cases h
        cases eq_of_skip_false hskip
        exact .leaf rfl rfl rfl hname

theorem lays_newObject (hn : nested.Builds)
    (h : newObject nested item.location ⟨rest, item.location, docs, errors⟩ = .ok e t) :
    Lays ⟨item :: rest, last, docs, errors⟩ [.expr e] t := by
  have hnone : Builds (pure [] : Parser (List Expr)) fun es => es.map .expr := by
    rintro s _ _ ⟨⟩
    exact .refl s
  refine Extends.lays .expr (builds_ownerName.andThen fun owner => Extends.after fun isCall => ?_)
    (.refl _) h
  cases isCall with
  | true =>
      refine (builds_arguments hn).andThen fun es => extends_last fun t ht => ?_
      exact .opened ht rfl rfl rfl rfl
  | false =>
      refine hnone.andThen fun es => extends_last fun t ht => ?_
      exact .opened ht rfl rfl rfl rfl

theorem lays_operandOf (hn : nested.Builds) {token : Token}
    (h : operandOf nested (token, item.location) ⟨rest, item.location, docs, errors⟩ = .ok e t) :
    Lays ⟨item :: rest, last, docs, errors⟩ [.expr e] t := by
  cases token with
  | symbol symbol =>
      cases symbol with
      | parenLeft =>
          refine Extends.lays .expr (hn.expression.andThen fun inner => ?_)
            (.taken item rest last docs errors) h
          exact Extends.after fun _ => extends_pure fun _ ht => ht
      | bracketLeft =>
          refine Extends.lays .expr ((builds_arrayItems hn .bracketRight).andThen fun items => ?_)
            (.refl _) h
          exact extends_last fun t ht => lays_array ht
      | _ => cases h
  | keyword keyword =>
      cases keyword with
      | New => exact lays_newObject hn h
      | Static => exact lays_restOfName hn rfl h
      | _ => cases h
  | identifier name =>
      rw [operandOf_identifier] at h
      split at h
      case isTrue =>
        obtain ⟨isArray, s, hskip, h⟩ := bind_eq_ok_iff.mp h
        cases isArray with
        | true =>
            refine Extends.lays .expr ((builds_arrayItems hn .parenRight).andThen fun items => ?_)
              (builds_quiet hskip) h
            exact extends_last fun t ht => lays_array ht
        | false =>
            cases eq_of_skip_false hskip
            exact lays_restOfName hn rfl h
      case isFalse => exact lays_restOfName hn rfl h
  | string text interpolated =>
      cases interpolated <;> cases h <;> exact .leaf rfl rfl rfl rfl
  | var | int | float | bool | null =>
      cases h
      exact .leaf rfl rfl rfl rfl
  | _ => cases h

end FirstItem

theorem builds_primary (hn : nested.Builds) : Builds (primary nested) fun e => [.expr e] := by
  intro s e t h
  obtain ⟨items, last, docs, errors⟩ := s
  cases items with
  | nil =>
      rw [primary_nil] at h
      cases h
  | cons item rest =>
      by_cases hends : item.token?.any endsOperand
      · rw [primary_of_ends hends] at h
        cases h
        exact .missing item rest last docs errors
      · rw [primary_of_not_ends hends] at h
        obtain ⟨⟨token, location⟩, s, htake, h⟩ := bind_eq_ok_iff.mp h
        obtain ⟨_, _, ⟨⟩, -, hlocation, rfl⟩ := exists_of_take htake
        cases hlocation
        exact lays_operandOf hn h

section Accesses

-- The item after the object has been taken.
variable {s₀ : Stream} {item : Item} {rest : List Item} {last : Location} {docs : Docs}
  {errors : List SyntaxError} {object e : Expr} {t : Stream}

theorem lays_member (hn : nested.Builds)
    (hobject : Lays s₀ [.expr object] ⟨item :: rest, last, docs, errors⟩)
    (h : member nested object ⟨rest, item.location, docs, errors⟩ = .ok e t) :
    Lays s₀ [.expr e] t := by
  obtain ⟨name, s, hname, h⟩ := bind_eq_ok_iff.mp h
  have hs := builds_identifier hname
  obtain ⟨isCall, _, ⟨⟩, h⟩ := bind_eq_ok_iff.mp h
  split at h
  case isTrue =>
    refine Extends.lays .expr ((builds_arguments hn).andThen fun es => ?_) hs h
    exact extends_last fun t ht => .extended hobject ht rfl rfl rfl
  case isFalse =>
    cases h
    obtain ⟨_, _, -, hlocation, ht⟩ := exists_of_identifier hname
    refine .extended hobject hs rfl rfl ?_
    rw [Expr.location, ht, hlocation]

theorem lays_subscript (hn : nested.Builds)
    (hobject : Lays s₀ [.expr object] ⟨item :: rest, last, docs, errors⟩)
    (h : subscript nested object ⟨rest, item.location, docs, errors⟩ = .ok e t) :
    Lays s₀ [.expr e] t := by
  refine Extends.lays .expr (Extends.after fun isSlot => ?_) (.refl _) h
  cases isSlot with
  | true => exact extends_last fun t ht => .extended hobject ht rfl rfl rfl
  | false =>
      refine hn.expression.andThen fun index => Extends.after fun _ => ?_
      exact extends_last fun t ht => .extended hobject ht rfl rfl rfl

end Accesses

theorem lays_access? (hn : nested.Builds) {s₀ s t : Stream} {object : Expr} {result : Option Expr}
    (hobject : Lays s₀ [.expr object] s) (h : access? nested object s = .ok result t) :
    Lays s₀ [.expr (result.getD object)] t := by
  obtain ⟨isMember, u, hskip, h⟩ := bind_eq_ok_iff.mp h
  cases isMember with
  | true =>
      obtain ⟨e, _, hmember, ⟨⟩⟩ := bind_eq_ok_iff.mp h
      obtain ⟨item, rest, hs, -, hu⟩ := exists_of_skip_true hskip
      rw [hu] at hmember
      rw [hs] at hobject
      exact lays_member hn hobject hmember
  | false =>
      rw [eq_of_skip_false hskip] at h
      obtain ⟨isSubscript, u, hskip, h⟩ := bind_eq_ok_iff.mp h
      cases isSubscript with
      | true =>
          obtain ⟨e, _, hsubscript, ⟨⟩⟩ := bind_eq_ok_iff.mp h
          obtain ⟨item, rest, hs, -, hu⟩ := exists_of_skip_true hskip
          rw [hu] at hsubscript
          rw [hs] at hobject
          exact lays_subscript hn hobject hsubscript
      | false =>
          cases h
          rwa [eq_of_skip_false hskip]

theorem builds_accesses (hn : nested.Builds) : Builds (accesses nested) fun e => [.expr e] := by
  refine Extends.builds fun s₀ => (builds_primary hn).andThen fun first => ?_
  refine extends_iterate (fun state => [.expr state.1]) rfl fun state => ?_
  obtain ⟨object, height⟩ := state
  refine Extends.bind (fun _ hs _ _ h => lays_access? hn hs h) fun result => ?_
  cases result with
  | none => exact extends_pure fun _ ht => ht
  | some result => exact Extends.after fun _ => extends_pure fun _ ht => ht

-- The operator has been taken after the left side.
theorem lays_binary {s₀ t : Stream} {item : Item} {rest : List Item} {last : Location} {docs : Docs}
    {errors : List SyntaxError} {left right : Expr} (op : BinaryOp)
    (hleft : Lays s₀ [.expr left] ⟨item :: rest, last, docs, errors⟩)
    (hright : Lays ⟨rest, item.location, docs, errors⟩ [.expr right] t) :
    Lays s₀
      [.expr (.binary op left right (left.location.cover right.location) item.location)] t := by
  have hop : Lays ⟨item :: rest, last, docs, errors⟩ [.operator item.location]
      ⟨rest, item.location, docs, errors⟩ := .leaf rfl rfl rfl rfl
  exact .joined (v := [.operator item.location]) ((hleft.trans hop).trans hright) rfl rfl rfl

theorem builds_power (hn : nested.Builds) : Builds (power nested) fun e => [.expr e] := by
  intro s e t h
  obtain ⟨base, u, hbase, h⟩ := bind_eq_ok_iff.mp h
  have hu := builds_accesses hn hbase
  obtain ⟨isPower, v, hskip, h⟩ := bind_eq_ok_iff.mp h
  cases isPower with
  | true =>
      obtain ⟨item, rest, hitem, -, rfl⟩ := exists_of_skip_true hskip
      obtain ⟨_, _, ⟨⟩, h⟩ := bind_eq_ok_iff.mp h
      obtain ⟨exponent, _, hexponent, ⟨⟩⟩ := bind_eq_ok_iff.mp h
      rw [hitem] at hu
      exact lays_binary .power hu (hn.operand hexponent)
  | false =>
      cases h
      rwa [eq_of_skip_false hskip]

theorem builds_unary (hn : nested.Builds) : Builds (unary nested) fun e => [.expr e] := by
  refine Gives.builds fun s => gives_peek fun token? hitem => ?_
  split
  · obtain ⟨item, rest, last, docs, errors, rfl⟩ := hitem rfl
    refine gives_advance fun e t h => ?_
    obtain ⟨operand, _, hoperand, ⟨⟩⟩ := bind_eq_ok_iff.mp h
    exact .prefixed (hn.operand hoperand) rfl rfl rfl
  · split
    case h_1 op hop =>
      obtain ⟨item, rest, last, docs, errors, rfl⟩ :=
        hitem (Option.isSome_of_isSome_bind (Option.isSome_of_eq_some hop))
      refine gives_advance fun e t h => ?_
      obtain ⟨operand, _, hoperand, ⟨⟩⟩ := bind_eq_ok_iff.mp h
      have hop : Lays ⟨item :: rest, last, docs, errors⟩ [.operator item.location]
          ⟨rest, item.location, docs, errors⟩ := .leaf rfl rfl rfl rfl
      exact .joined (v := []) (hop.trans (hn.operand hoperand)) rfl rfl rfl
    case h_2 => exact fun e t h => builds_power hn h

theorem builds_operation {table : List (Token × BinaryOp)} {operand : Parser Expr}
    (hoperand : Builds operand fun e => [.expr e]) :
    Builds (operation table operand) fun e => [.expr e] := by
  refine Extends.builds fun s₀ => hoperand.andThen fun first => ?_
  refine extends_iterate (fun left => [.expr left]) rfl fun left s hs => ?_
  refine gives_peek fun token? hitem => ?_
  split
  case h_1 =>
    rintro _ _ ⟨⟩
    exact hs
  case h_2 op hop =>
    obtain ⟨item, rest, last, docs, errors, rfl⟩ :=
      hitem (Option.isSome_of_isSome_bind (Option.isSome_of_eq_some hop))
    refine gives_advance fun result t h => ?_
    obtain ⟨right, u, hright, h⟩ := bind_eq_ok_iff.mp h
    obtain ⟨_, _, hheight, ⟨⟩⟩ := bind_eq_ok_iff.mp h
    exact (lays_binary op hs (hoperand hright)).trans (builds_quiet hheight)

theorem builds_assignment (hn : nested.Builds) {operand : Parser Expr}
    (hoperand : Builds operand fun e => [.expr e]) :
    Builds (assignment nested operand) fun e => [.expr e] := by
  refine Extends.builds fun s₀ => hoperand.andThen fun target => Extends.after fun token? => ?_
  split
  · exact extends_pure fun _ ht => ht
  · refine Extends.after fun _ => Extends.after fun _ => hn.assigned.andThen fun value => ?_
    exact Extends.after fun _ => extends_pure fun _ ht => .joined (v := []) ht rfl rfl rfl

-- By induction on the levels, the tighter ones first.
theorem builds_climb (hn : nested.Builds) (levels : List Level) :
    Builds (climb nested levels) fun e => [.expr e] := by
  induction levels with
  | nil => exact builds_unary hn
  | cons level tighter ih =>
      cases level with
      | assignments => exact builds_assignment hn ih
      | operators table => exact builds_operation ih

theorem builds_nestedAt (depth : Nat) : (nestedAt depth).Builds := by
  induction depth with
  | zero => exact ⟨builds_tooDeep, builds_tooDeep, builds_tooDeep⟩
  | succ depth ih => exact ⟨builds_climb ih levels, builds_unary ih, builds_climb ih tightLevels⟩

end Expressions

end Syntax

end PhpLint
