import PhpLint.Proofs.Syntax.Movement
import PhpLint.Proofs.Syntax.Pieces

namespace PhpLint

namespace Stmt

def isConditional : Stmt → Bool
  | ifThen .. | ifElse .. => true
  | _ => false

-- Whether the alternative of a condition is another condition.
def isChained : Stmt → Bool
  | ifElse _ _ elseBranch _ => elseBranch.isConditional
  | _ => false

end Stmt

-- The number of statements on the longest path into a statement, itself included, where a
-- condition that is the alternative of another one adds the given number.
mutual
def Stmt.depth (link : Nat) : Stmt → Nat
  | .ifThen _ thenBranch _ => thenBranch.depth link + 1
  | .ifElse _ thenBranch elseBranch _ =>
    max (thenBranch.depth link + 1)
      (elseBranch.depth link + if elseBranch.isConditional then link else 1)
  | .loop _ body _ => body.depth link + 1
  | .block ⟨statements, _⟩ => blockDepth link statements + 1
  | .functionDecl _ ⟨statements, _⟩ _ => blockDepth link statements + 1
  | .classDecl _ methods _ => methodDepth link methods + 1
  | .expr .. | .echo .. | .ret .. | .html _ | .constDecl .. | .invalid _ => 1

def blockDepth (link : Nat) : List Stmt → Nat
  | [] => 0
  | s :: ss => max (s.depth link) (blockDepth link ss)

def methodDepth (link : Nat) : List Method → Nat
  | [] => 0
  | ⟨_, _, none, _⟩ :: methods => methodDepth link methods
  | ⟨_, _, some ⟨statements, _⟩, _⟩ :: methods =>
    max (blockDepth link statements) (methodDepth link methods)
end

-- All statements count.
def Stmt.nesting (s : Stmt) : Nat :=
  s.depth 1

-- The conditions of a chain are on one level.
def Stmt.levels (s : Stmt) : Nat :=
  s.depth 0

-- What is in a statement when a number of levels is left for it. The expressions in it are
-- as allowed one level below.
inductive Stmt.Within (E : Nat → Expr → Prop) : Nat → Stmt → Prop
  | expr {depth e location} : E depth e → Within E (depth + 1) (.expr e location)
  | echo {depth es location} : (∀ e ∈ es, E depth e) → Within E (depth + 1) (.echo es location)
  | ret {depth value location} :
    (∀ e ∈ value, E depth e) → Within E (depth + 1) (.ret value location)
  | ifThen {depth condition thenBranch location} :
    E depth condition → Within E depth thenBranch →
    Within E (depth + 1) (.ifThen condition thenBranch location)
  | ifElse {depth condition thenBranch elseBranch location} :
    E depth condition → Within E depth thenBranch → Within E depth elseBranch →
    Within E (depth + 1) (.ifElse condition thenBranch elseBranch location)
  | chain {depth condition thenBranch elseBranch location} :
    E depth condition → Within E depth thenBranch →
    Within E (depth + 1) elseBranch → elseBranch.isConditional →
    Within E (depth + 1) (.ifElse condition thenBranch elseBranch location)
  | loop {depth condition body location} :
    E depth condition → Within E depth body → Within E (depth + 1) (.loop condition body location)
  | block {depth statements location} :
    (∀ s ∈ statements, Within E depth s) → Within E (depth + 1) (.block ⟨statements, location⟩)
  | html {depth location} : Within E (depth + 1) (.html location)
  | functionDecl {depth signature statements bodyLocation location} :
    (∀ e ∈ Signature.defaults signature, E depth e) → (∀ s ∈ statements, Within E depth s) →
    Within E (depth + 1) (.functionDecl signature ⟨statements, bodyLocation⟩ location)
  | classDecl {depth header methods location} :
    (∀ method ∈ methods, ∀ e ∈ Signature.defaults (Method.signature method), E depth e) →
    (∀ method ∈ methods, ∀ body ∈ Method.body method, ∀ s ∈ Block.statements body,
      Within E depth s) →
    Within E (depth + 1) (.classDecl header methods location)
  | constDecl {depth name e location} :
    E depth e → Within E (depth + 1) (.constDecl name e location)
  | invalid {depth location} : Within E (depth + 1) (.invalid location)

theorem blockDepth_le {link depth : Nat} {ss : List Stmt} (h : ∀ s ∈ ss, s.depth link ≤ depth) :
    blockDepth link ss ≤ depth := by
  induction ss with
  | nil => exact Nat.zero_le _
  | cons s ss ih =>
      rw [blockDepth]
      exact Nat.max_le.mpr ⟨h s (by simp), ih fun s hs => h s (by simp [hs])⟩

theorem methodDepth_le {link depth : Nat} {methods : List Method}
    (h : ∀ method ∈ methods, ∀ body ∈ method.body, ∀ s ∈ body.statements, s.depth link ≤ depth) :
    methodDepth link methods ≤ depth := by
  induction methods with
  | nil => exact Nat.zero_le _
  | cons method methods ih =>
      obtain ⟨signature, modifiers, body, location⟩ := method
      have hrest := ih fun method hmethod => h method (by simp [hmethod])
      cases body with
      | none => exact hrest
      | some body =>
          obtain ⟨statements, bodyLocation⟩ := body
          rw [methodDepth]
          exact Nat.max_le.mpr ⟨blockDepth_le (h _ List.mem_cons_self _ rfl), hrest⟩

theorem Stmt.Within.levels_le {E : Nat → Expr → Prop} {depth : Nat} {s : Stmt}
    (h : s.Within E depth) : s.levels ≤ depth := by
  unfold levels
  induction h with
  | ifThen _ _ ih =>
      rw [Stmt.depth]
      omega
  | ifElse _ _ _ hthen helse =>
      rw [Stmt.depth]
      split <;> omega
  | chain _ _ _ hconditional hthen helse =>
      rw [Stmt.depth, if_pos hconditional]
      omega
  | loop _ _ ih =>
      rw [Stmt.depth]
      omega
  | block _ ih | functionDecl _ _ ih =>
      rw [Stmt.depth]
      exact Nat.succ_le_succ (blockDepth_le ih)
  | classDecl _ _ ih =>
      rw [Stmt.depth]
      exact Nat.succ_le_succ (methodDepth_le ih)
  | _ =>
      rw [Stmt.depth]
      omega

-- A part of an expression that is allowed on a level below.
def Expr.IsBelow (E : Nat → Expr → Prop) (depth : Nat) (e : Expr) : Prop :=
  ∃ level < depth, ∃ whole, E level whole ∧ e ∈ whole.parts

namespace Expr.IsBelow

variable {E : Nat → Expr → Prop} {depth : Nat} {e : Expr}

theorem succ (h : e.IsBelow E depth) : e.IsBelow E (depth + 1) := by
  obtain ⟨level, hlt, hwhole⟩ := h
  exact ⟨level, Nat.lt_succ_of_lt hlt, hwhole⟩

theorem of_mem_pieces {whole : Expr} (hwhole : E depth whole) (he : .expr e ∈ whole.pieces) :
    e.IsBelow E (depth + 1) := by
  obtain ⟨part, hpart, ⟨⟩⟩ := List.mem_map.mp he
  exact ⟨depth, Nat.lt_succ_self depth, whole, hwhole, hpart⟩

theorem of_mem_defaults {signature : Signature} (hdefaults : ∀ e ∈ signature.defaults, E depth e)
    (he : .expr e ∈ signature.pieces) : e.IsBelow E (depth + 1) := by
  rw [← mem_expressionsIn, Signature.expressionsIn_pieces] at he
  obtain ⟨whole, hwhole, hpart⟩ := mem_listParts.mp he
  exact ⟨depth, Nat.lt_succ_self depth, whole, hdefaults whole hwhole, hpart⟩

end Expr.IsBelow

theorem Stmt.Within.isBelow {E : Nat → Expr → Prop} {depth : Nat} {s : Stmt}
    (h : s.Within E depth) {e : Expr} (he : .expr e ∈ s.pieces) : e.IsBelow E depth := by
  induction h with
  | expr hwhole | constDecl hwhole =>
      simp only [Stmt.pieces, List.mem_cons, reduceCtorEq, false_or] at he
      exact .of_mem_pieces hwhole he
  | echo hes =>
      simp only [Stmt.pieces, List.mem_cons, reduceCtorEq, false_or, List.mem_flatMap] at he
      obtain ⟨whole, hwhole, hmem⟩ := he
      exact .of_mem_pieces (hes whole hwhole) hmem
  | ret hvalue =>
      simp only [Stmt.pieces, List.mem_cons, reduceCtorEq, false_or, List.mem_flatMap,
        Option.mem_toList] at he
      obtain ⟨whole, hwhole, hmem⟩ := he
      exact .of_mem_pieces (hvalue whole hwhole) hmem
  | ifThen hcondition _ ih | loop hcondition _ ih =>
      simp only [Stmt.pieces, List.mem_cons, reduceCtorEq, false_or, List.mem_append] at he
      rcases he with he | he
      · exact .of_mem_pieces hcondition he
      · exact (ih he).succ
  | ifElse hcondition _ _ hthen helse =>
      simp only [Stmt.pieces, List.mem_cons, reduceCtorEq, false_or, List.mem_append] at he
      rcases he with (he | he) | he
      · exact .of_mem_pieces hcondition he
      · exact (hthen he).succ
      · exact (helse he).succ
  | chain hcondition _ _ _ hthen helse =>
      simp only [Stmt.pieces, List.mem_cons, reduceCtorEq, false_or, List.mem_append] at he
      rcases he with (he | he) | he
      · exact .of_mem_pieces hcondition he
      · exact (hthen he).succ
      · exact helse he
  | block _ ih =>
      simp only [Stmt.pieces, List.mem_cons, reduceCtorEq, false_or, blockPieces_eq,
        List.mem_flatMap] at he
      obtain ⟨s, hs, hmem⟩ := he
      exact (ih s hs hmem).succ
  | functionDecl hdefaults _ ih =>
      simp only [Stmt.pieces, List.mem_cons, reduceCtorEq, false_or, blockPieces_eq,
        List.mem_append, List.mem_flatMap] at he
      rcases he with he | ⟨s, hs, hmem⟩
      · exact .of_mem_defaults hdefaults he
      · exact (ih s hs hmem).succ
  | classDecl hdefaults _ ih =>
      simp only [Stmt.pieces, List.mem_cons, reduceCtorEq, false_or, methodPieces_eq,
        List.mem_flatMap, Method.pieces, List.mem_append] at he
      obtain ⟨method, hmethod, he | he⟩ := he
      · exact .of_mem_defaults (hdefaults method hmethod) he
      · cases hbody : method.body with
        | none => simp [hbody] at he
        | some body =>
            simp only [hbody, Option.elim_some, blockPieces_eq, List.mem_flatMap] at he
            obtain ⟨s, hs, hmem⟩ := he
            exact (ih method hmethod body hbody s hs hmem).succ
  | html | invalid => simp [Stmt.pieces] at he

-- Where there are no chains, all counts are the same.
mutual
theorem Stmt.depth_eq_of_unchained (link other : Nat) : ∀ s : Stmt,
    (∀ part ∈ s.parts, part.isChained = false) → s.depth link = s.depth other
  | .ifThen _ thenBranch _, h => by
      have hthen := thenBranch.depth_eq_of_unchained link other
        fun part hpart => h part (by simp [Stmt.parts, hpart])
      rw [Stmt.depth, Stmt.depth, hthen]
  | .ifElse condition thenBranch elseBranch location, h => by
      have hthen := thenBranch.depth_eq_of_unchained link other
        fun part hpart => h part (by simp [Stmt.parts, hpart])
      have helse := elseBranch.depth_eq_of_unchained link other
        fun part hpart => h part (by simp [Stmt.parts, hpart])
      have hlink : elseBranch.isConditional = false :=
        h (.ifElse condition thenBranch elseBranch location) (by simp [Stmt.parts])
      simp only [Stmt.depth, hthen, helse, hlink, Bool.false_eq_true, if_false]
  | .loop _ body _, h => by
      have hbody := body.depth_eq_of_unchained link other
        fun part hpart => h part (by simp [Stmt.parts, hpart])
      rw [Stmt.depth, Stmt.depth, hbody]
  | .block ⟨statements, _⟩, h | .functionDecl _ ⟨statements, _⟩ _, h => by
      have hbody := blockDepth_eq_of_unchained link other statements
        fun part hpart => h part (by simp [Stmt.parts, hpart])
      rw [Stmt.depth, Stmt.depth, hbody]
  | .classDecl _ methods _, h => by
      have hmethods := methodDepth_eq_of_unchained link other methods
        fun part hpart => h part (by simp [Stmt.parts, hpart])
      rw [Stmt.depth, Stmt.depth, hmethods]
  | .expr .., _ | .echo .., _ | .ret .., _ | .html _, _ | .constDecl .., _ | .invalid _, _ => by
      rw [Stmt.depth, Stmt.depth]

theorem blockDepth_eq_of_unchained (link other : Nat) : ∀ ss : List Stmt,
    (∀ part ∈ blockParts ss, part.isChained = false) → blockDepth link ss = blockDepth other ss
  | [], _ => rfl
  | s :: ss, h => by
      have hfirst := s.depth_eq_of_unchained link other
        fun part hpart => h part (by simp [blockParts, hpart])
      have hrest := blockDepth_eq_of_unchained link other ss
        fun part hpart => h part (by simp [blockParts, hpart])
      rw [blockDepth, blockDepth, hfirst, hrest]

theorem methodDepth_eq_of_unchained (link other : Nat) : ∀ methods : List Method,
    (∀ part ∈ methodParts methods, part.isChained = false) →
      methodDepth link methods = methodDepth other methods
  | [], _ => rfl
  | ⟨_, _, none, _⟩ :: methods, h => by
      rw [methodDepth, methodDepth]
      exact methodDepth_eq_of_unchained link other methods h
  | ⟨_, _, some ⟨statements, _⟩, _⟩ :: methods, h => by
      have hbody := blockDepth_eq_of_unchained link other statements
        fun part hpart => h part (by simp [methodParts, hpart])
      have hrest := methodDepth_eq_of_unchained link other methods
        fun part hpart => h part (by simp [methodParts, hpart])
      rw [methodDepth, methodDepth, hbody, hrest]
end

namespace Syntax

open EStateM (bind_eq_ok_iff)
open PhpLint.Syntax.Parser

namespace Parser

variable {α β σ : Type} {P : α → Prop} {Q : β → Prop}

-- Whatever the parser returns is as said.
def Yields (p : Parser α) (P : α → Prop) : Prop :=
  ∀ ⦃s a t⦄, p s = .ok a t → P a

theorem yields_pure {a : α} (h : P a) : Yields (pure a) P := by
  rintro s _ _ ⟨⟩
  exact h

theorem yields_throw {error : SyntaxError} : Yields (throw error : Parser α) P := by
  rintro s a t ⟨⟩

theorem Yields.bind {p : Parser α} {f : α → Parser β} (hp : Yields p P)
    (hf : ∀ a, P a → Yields (f a) Q) : Yields (p >>= f) Q := by
  intro s b u h
  obtain ⟨a, t, hpt, hfu⟩ := bind_eq_ok_iff.mp h
  exact hf a (hp hpt) hfu

-- What is read first does not matter.
theorem Yields.after {p : Parser α} {f : α → Parser β} (hf : ∀ a, Yields (f a) Q) :
    Yields (p >>= f) Q := by
  intro s b u h
  obtain ⟨a, t, -, hfu⟩ := bind_eq_ok_iff.mp h
  exact hf a hfu

theorem Yields.ofSome {p : Parser α} {f : Option α → Parser β} (hp : Yields p P)
    (hf : ∀ a, P a → Yields (f (some a)) Q) : Yields (some <$> p >>= f) Q := by
  simpa using hp.bind hf

theorem Yields.ofNone {f : Option α → Parser β} (hf : Yields (f none) Q) :
    Yields (pure none >>= f) Q :=
  hf

theorem yields_tooDeep : Yields (tooDeep : Parser α) P :=
  .after fun _ => yields_throw

-- The state of a loop is as said in every round. By induction on the rounds that are left.
theorem yields_rounds {I : σ → Prop} {step : σ → Parser (σ ⊕ α)}
    (hstep : ∀ state, I state → Yields (step state) (Sum.elim I P)) (fuel : Nat) {state : σ}
    (h : I state) : Yields (rounds step fuel state) P := by
  induction fuel generalizing state with
  | zero =>
      rw [rounds]
      exact .after fun _ => yields_throw
  | succ fuel ih =>
      rw [rounds]
      refine (hstep state h).bind fun result hresult => ?_
      cases result with
      | inl state => exact ih hresult
      | inr result => exact yields_pure hresult

theorem yields_iterate {step : σ → Parser (σ ⊕ α)} {start : σ} (I : σ → Prop) (hstart : I start)
    (hstep : ∀ state, I state → Yields (step state) (Sum.elim I P)) :
    Yields (iterate step start) P :=
  .after fun _ => yields_rounds hstep _ hstart

theorem yields_separated {closing : Symbol} {thing : Parser α} (hthing : Yields thing P) :
    Yields (separated closing thing) fun things => ∀ a ∈ things, P a := by
  refine yields_iterate (fun things => ∀ a ∈ things, P a) (by simp) fun things hthings => ?_
  refine .after fun isClosed => ?_
  cases isClosed with
  | true => exact yields_pure (by simpa using hthings)
  | false =>
      refine hthing.bind fun a ha => .after fun isMore => ?_
      have hall : ∀ b ∈ a :: things, P b := List.forall_mem_cons.mpr ⟨ha, hthings⟩
      cases isMore with
      | true => exact yields_pure hall
      | false => exact yields_pure fun b hb => hall b (List.mem_reverse.mp hb)

end Parser

section Statements

variable {E : Nat → Expr → Prop} {depth : Nat} {parts : Parts}

-- An empty statement needs a level too.
structure Parts.Within (E : Nat → Expr → Prop) (depth : Nat) (parts : Parts) : Prop where
  expression : Yields parts.expression (E depth)
  statement : Yields parts.statement fun s => ∀ l, (s.getD (.block ⟨[], l⟩)).Within E depth

theorem yields_condition (hp : parts.Within E depth) : Yields (condition parts) (E depth) :=
  .after fun _ => hp.expression.bind fun _ hcondition => .after fun _ => yields_pure hcondition

theorem yields_controlled (hp : parts.Within E depth) :
    Yields (controlled parts) (Stmt.Within E depth) := by
  refine hp.statement.bind fun statement hstatement => ?_
  cases statement with
  | some statement => exact yields_pure (hstatement default)
  | none => exact .after fun l => yields_pure (hstatement l)

theorem yields_echo (hp : parts.Within E depth) (start : Option Location) :
    Yields (echo parts start) (Stmt.Within E (depth + 1)) := by
  refine hp.expression.bind fun first hfirst => ?_
  have hmore : Yields (iterate (anotherExpression parts) [first])
      fun es => ∀ e ∈ es, E depth e := by
    refine yields_iterate (fun es => ∀ e ∈ es, E depth e) (by simpa using hfirst) fun es hes => ?_
    refine .after fun isMore => ?_
    cases isMore with
    | true =>
        exact hp.expression.bind fun e he => yields_pure (List.forall_mem_cons.mpr ⟨he, hes⟩)
    | false => exact yields_pure (by simpa using hes)
  exact hmore.bind fun es hes => .after fun _ => .after fun _ => yields_pure (.echo hes)

theorem yields_returned (hp : parts.Within E depth) (start : Option Location) :
    Yields (returned parts start) (Stmt.Within E (depth + 1)) := by
  refine .after fun isSemicolon => .after fun isCloseTag => ?_
  cases isSemicolon || isCloseTag with
  | true => exact .ofNone (.after fun _ => .after fun _ => yields_pure (.ret (by simp)))
  | false =>
      refine hp.expression.ofSome fun e he => .after fun _ => .after fun _ => ?_
      exact yields_pure (.ret (by simpa using he))

structure Clause.Within (E : Nat → Expr → Prop) (depth : Nat) (clause : Clause) : Prop where
  condition : E depth clause.condition
  body : clause.body.Within E depth

theorem yields_clause (hp : parts.Within E depth) (start : Option Location) :
    Yields (clause parts start) (Clause.Within E depth) :=
  (yields_condition hp).bind fun _ hcondition =>
    (yields_controlled hp).bind fun _ hbody => yields_pure ⟨hcondition, hbody⟩

theorem yields_alternatives (hp : parts.Within E depth) :
    Yields (alternatives parts) fun read =>
      (∀ clause ∈ read.1, clause.Within E depth) ∧ ∀ final ∈ read.2, final.Within E depth := by
  refine yields_iterate (fun clauses => ∀ clause ∈ clauses, clause.Within E depth) (by simp)
    fun clauses hclauses => .after fun start => .after fun isElseif => ?_
  have hnext (start : Option Location) : Yields (do return .inl ((← clause parts start) :: clauses))
      (Sum.elim (fun clauses => ∀ clause ∈ clauses, clause.Within E depth)
        fun read : List Clause × Option Stmt =>
          (∀ clause ∈ read.1, clause.Within E depth) ∧ ∀ final ∈ read.2, final.Within E depth) :=
    (yields_clause hp start).bind fun clause hclause =>
      yields_pure (List.forall_mem_cons.mpr ⟨hclause, hclauses⟩)
  cases isElseif with
  | true => exact hnext start
  | false =>
      refine .after fun isElse => ?_
      cases isElse with
      | true =>
          refine .after fun start => .after fun isIf => ?_
          cases isIf with
          | true => exact hnext start
          | false =>
              refine (yields_controlled hp).bind fun final hfinal => yields_pure ⟨?_, ?_⟩
              · simpa using hclauses
              · simpa using hfinal
      | false => exact yields_pure ⟨by simpa using hclauses, by simp⟩

-- An alternative that is a condition is on the level of the one in front of it.
theorem Clause.Within.toStmt {clause : Clause} {alternative : Option Stmt} {last : Location}
    (h : clause.Within E depth)
    (halternative : ∀ s ∈ alternative, s.Within E depth ∨
      s.Within E (depth + 1) ∧ s.isConditional) :
    (clause.toStmt last alternative).Within E (depth + 1) ∧
      (clause.toStmt last alternative).isConditional := by
  cases alternative with
  | none => exact ⟨.ifThen h.condition h.body, rfl⟩
  | some s =>
      refine ⟨?_, rfl⟩
      rcases halternative s rfl with hs | ⟨hs, hconditional⟩
      · exact .ifElse h.condition h.body hs
      · exact .chain h.condition h.body hs hconditional

theorem within_alternatives {clauses : List Clause} {final : Option Stmt} {last : Location}
    (hclauses : ∀ clause ∈ clauses, clause.Within E depth)
    (hfinal : ∀ s ∈ final, s.Within E depth) :
    ∀ s ∈ clauses.foldr (fun (clause : Clause) next => some (clause.toStmt last next)) final,
      s.Within E depth ∨ s.Within E (depth + 1) ∧ s.isConditional := by
  induction clauses with
  | nil => exact fun s hs => .inl (hfinal s hs)
  | cons clause clauses ih =>
      have hrest := ih fun clause hclause => hclauses clause (by simp [hclause])
      rintro _ ⟨⟩
      exact .inr ((hclauses clause (by simp)).toStmt hrest)

theorem yields_conditional (hp : parts.Within E depth) (start : Option Location) :
    Yields (conditional parts start) (Stmt.Within E (depth + 1)) := by
  refine (yields_clause hp start).bind fun first hfirst => ?_
  refine (yields_alternatives hp).bind fun read hread => .after fun last => ?_
  exact yields_pure (hfirst.toStmt (within_alternatives hread.1 hread.2)).1

theorem yields_whileLoop (hp : parts.Within E depth) (start : Option Location) :
    Yields (whileLoop parts start) (Stmt.Within E (depth + 1)) :=
  (yields_condition hp).bind fun _ hcondition => (yields_controlled hp).bind fun _ hbody =>
    .after fun _ => yields_pure (.loop hcondition hbody)

theorem yields_block (hp : parts.Within E depth) (start : Location) :
    Yields (block parts start) fun body => ∀ s ∈ body.statements, s.Within E depth := by
  refine Yields.bind (P := fun statements => ∀ s ∈ statements, s.Within E depth) ?_
    fun statements hstatements => .after fun _ => yields_pure hstatements
  refine yields_iterate (fun statements => ∀ s ∈ statements, s.Within E depth) (by simp)
    fun statements hstatements => .after fun isClosed => ?_
  cases isClosed with
  | true => exact yields_pure (by simpa using hstatements)
  | false =>
      refine .after fun s => ?_
      split
      · exact .after fun _ => yields_throw
      · refine hp.statement.bind fun statement hstatement => ?_
        cases statement with
        | some statement =>
            exact yields_pure (List.forall_mem_cons.mpr ⟨hstatement default, hstatements⟩)
        | none => exact yields_pure hstatements

theorem yields_constantDeclaration (hp : parts.Within E depth) (start : Option Location) :
    Yields (constantDeclaration parts start) (Stmt.Within E (depth + 1)) :=
  .after fun _ => .after fun _ => hp.expression.bind fun _ he => .after fun _ => .after fun _ =>
    yields_pure (.constDecl he)

theorem yields_parameter (hp : parts.Within E depth) :
    Yields (parameter parts) fun parameter => ∀ e ∈ parameter.default, E depth e := by
  refine .after fun start => .after fun _ => .after fun _ => .after fun found => ?_
  split
  · refine .after fun hasDefault => ?_
    cases hasDefault with
    | true =>
        refine hp.expression.ofSome fun e he => .after fun _ => yields_pure ?_
        simpa using he
    | false => exact .ofNone (.after fun _ => yields_pure (by simp))
  · exact yields_throw

theorem yields_signature (hp : parts.Within E depth) (doc : Option DocComment)
    (expected : Expectation) :
    Yields (signature parts doc expected) fun signature =>
      ∀ e ∈ signature.defaults, E depth e := by
  have hparameters : Yields (parameters parts) fun ps => ∀ p ∈ ps, ∀ e ∈ p.default, E depth e :=
    .after fun _ => (yields_separated (yields_parameter hp)).bind fun _ hps =>
      .after fun _ => yields_pure hps
  refine .after fun _ => .after fun name => hparameters.bind fun ps hps => .after fun _ => ?_
  refine yields_pure fun e he => ?_
  obtain ⟨p, hp, he⟩ := List.mem_filterMap.mp he
  exact hps p hp e he

theorem yields_body (hp : parts.Within E depth) (expected : Expectation) :
    Yields (body parts expected) fun body => ∀ s ∈ body.statements, s.Within E depth :=
  .after fun _ => .after fun start => yields_block hp start

theorem yields_functionDeclaration (hp : parts.Within E depth) (doc : Option DocComment)
    (start : Option Location) :
    Yields (functionDeclaration parts doc start) (Stmt.Within E (depth + 1)) := by
  refine (yields_signature hp doc _).bind fun signature hsignature => ?_
  refine (yields_body hp _).bind fun body hbody => .after fun _ => ?_
  obtain ⟨statements, bodyLocation⟩ := body
  exact yields_pure (.functionDecl hsignature hbody)

structure Method.Within (E : Nat → Expr → Prop) (depth : Nat) (method : Method) : Prop where
  defaults : ∀ e ∈ method.signature.defaults, E depth e
  body : ∀ body ∈ method.body, ∀ s ∈ body.statements, s.Within E depth

theorem yields_method (hp : parts.Within E depth) (doc : Option DocComment)
    (modifiers : List Modifier) (start : Option Location) :
    Yields (method parts doc modifiers start) (Method.Within E depth) := by
  refine (yields_signature hp doc _).bind fun signature hsignature => .after fun isAbstract => ?_
  cases isAbstract with
  | true => exact .ofNone (.after fun _ => yields_pure ⟨hsignature, by simp⟩)
  | false =>
      refine (yields_body hp _).ofSome fun body hbody => .after fun _ => ?_
      exact yields_pure ⟨hsignature, by simpa using hbody⟩

theorem yields_classMember (hp : parts.Within E depth) :
    Yields (classMember parts) fun read => ∀ method ∈ read, Method.Within E depth method := by
  refine .after fun start => .after fun doc => .after fun modifiers => .after fun isMethod => ?_
  cases isMethod with
  | true =>
      refine (yields_method hp doc modifiers start).bind fun method hmethod => ?_
      exact yields_pure (by simpa using hmethod)
  | false =>
      refine .after fun token? => ?_
      split
      · exact .after fun _ => yields_pure (by simp)
      · exact .after fun _ => yields_throw

theorem yields_classMethods (hp : parts.Within E depth) :
    Yields (classMethods parts) fun methods =>
      ∀ method ∈ methods, Method.Within E depth method := by
  refine yields_iterate (fun methods => ∀ method ∈ methods, Method.Within E depth method) (by simp)
    fun methods hmethods => .after fun isClosed => ?_
  cases isClosed with
  | true => exact yields_pure (by simpa using hmethods)
  | false =>
      refine (yields_classMember hp).bind fun read hread => ?_
      cases read with
      | some method => exact yields_pure (List.forall_mem_cons.mpr ⟨hread method rfl, hmethods⟩)
      | none => exact yields_pure hmethods

theorem yields_classDeclaration (hp : parts.Within E depth) (doc : Option DocComment)
    (start : Option Location) :
    Yields (classDeclaration parts doc start) (Stmt.Within E (depth + 1)) := by
  refine .after fun modifiers => .after fun _ => .after fun name => .after fun parent => ?_
  refine .after fun _ => .after fun _ => (yields_classMethods hp).bind fun methods hmethods => ?_
  refine .after fun _ => yields_pure (.classDecl ?_ ?_)
  · exact fun method hmethod => (hmethods method hmethod).defaults
  · exact fun method hmethod => (hmethods method hmethod).body

theorem yields_expressionStatement (hp : parts.Within E depth) (start : Option Location) :
    Yields (expressionStatement parts start) (Stmt.Within E (depth + 1)) :=
  hp.expression.bind fun _ he => .after fun _ => .after fun _ => yields_pure (.expr he)

theorem Parser.Yields.orNone {p : Parser Stmt} (hp : Yields p (Stmt.Within E (depth + 1))) :
    Yields (do return some (← p)) fun s =>
      ∀ l, (s.getD (.block ⟨[], l⟩)).Within E (depth + 1) :=
  hp.bind fun _ hs => yields_pure fun _ => hs

theorem yields_statement (hp : parts.Within E depth) :
    Yields (statement parts) fun s => ∀ l, (s.getD (.block ⟨[], l⟩)).Within E (depth + 1) := by
  have hnone (l : Location) : (Stmt.block ⟨[], l⟩).Within E (depth + 1) := .block (by simp)
  refine .after fun start => .after fun token? => ?_
  split
  · exact .after fun _ => yields_pure hnone
  · exact .after fun _ => yields_pure hnone
  · exact .after fun _ => yields_pure hnone
  · exact .after fun _ => .after fun _ => yields_pure fun _ => .html
  · exact .after fun _ => (yields_echo hp start).orNone
  · exact .after fun _ => (yields_returned hp start).orNone
  · exact .after fun _ => (yields_conditional hp start).orNone
  · exact .after fun _ => (yields_whileLoop hp start).orNone
  · refine .after fun _ => .after fun l => (yields_block hp l).bind fun body hbody => ?_
    obtain ⟨statements, location⟩ := body
    exact yields_pure fun _ => .block hbody
  · exact .after fun _ => (yields_constantDeclaration hp start).orNone
  · exact .after fun doc => .after fun _ => (yields_functionDeclaration hp doc start).orNone
  · exact .after fun doc => (yields_classDeclaration hp doc start).orNone
  · exact .after fun doc => (yields_classDeclaration hp doc start).orNone
  · exact .after fun doc => (yields_classDeclaration hp doc start).orNone
  · exact (yields_expressionStatement hp start).orNone

theorem yields_statementAt (hE : ∀ depth, Yields (nestedAt depth).expression (E depth))
    (depth : Nat) :
    Yields (statementAt depth) fun s => ∀ l, (s.getD (.block ⟨[], l⟩)).Within E depth := by
  induction depth with
  | zero => exact yields_tooDeep
  | succ depth ih => exact yields_statement ⟨hE depth, ih⟩

-- By induction on the rounds, that is on the statements that are left.
theorem within_program (hE : ∀ depth, Yields (nestedAt depth).expression (E depth)) (rounds : Nat)
    (s : Stream) : ∀ statement ∈ (program rounds s).1, statement.Within E maxDepth := by
  induction rounds generalizing s with
  | zero => simp [program]
  | succ rounds ih =>
      by_cases hitems : s.items = []
      · simp [program, hitems]
      · cases h : statementAt maxDepth s with
        | ok read t =>
            rw [program_of_ok hitems h]
            intro statement hstatement
            rcases List.mem_append.mp hstatement with hfirst | hrest
            · rw [Option.mem_toList] at hfirst
              obtain rfl := Option.mem_def.mp hfirst
              exact yields_statementAt hE maxDepth h default
            · exact ih t statement hrest
        | error error t =>
            have hrest := ih (resume s t error)
            obtain ⟨location, hprogram⟩ := @exists_program_of_error rounds s t error hitems h
            rw [hprogram]
            exact List.forall_mem_cons.mpr ⟨.invalid, hrest⟩

end Statements

end Syntax

open Syntax

theorem within_parse {E : Nat → Expr → Prop}
    (hE : ∀ depth, Parser.Yields (nestedAt depth).expression (E depth)) (lexemes : List Lexeme) :
    ∀ s ∈ (parse lexemes).1, s.Within E maxDepth :=
  within_program hE _ _

end PhpLint
