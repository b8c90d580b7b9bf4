import PhpLint.Proofs.Syntax.Operands

namespace PhpLint

namespace Syntax

open EStateM (bind_of_ok get_bind)
open PhpLint.Syntax.Parser

variable {e : Expr} {lexemes : List Lexeme} {tokens : List Token}

-- Comments are no part of an expression.
def IsCode (tokens : List Token) : Prop :=
  ∀ token ∈ tokens, ∀ text, token ≠ .docComment text

@[simp] theorem isCode_nil : IsCode [] := nofun

@[simp] theorem isCode_cons {token : Token} :
    IsCode (token :: tokens) ↔ (∀ text, token ≠ .docComment text) ∧ IsCode tokens :=
  List.forall_mem_cons

@[simp] theorem isCode_append {first second : List Token} :
    IsCode (first ++ second) ↔ IsCode first ∧ IsCode second :=
  List.forall_mem_append

@[simp] theorem isCode_parenthesized : IsCode (parenthesized tokens) ↔ IsCode tokens := by
  simp [parenthesized]

@[simp] theorem isCode_enclosed {isBare : Bool} :
    IsCode (enclosed isBare tokens) ↔ IsCode tokens := by
  cases isBare <;> simp [enclosed]

theorem isCode_commas {parts : List (List Token)} (h : ∀ part ∈ parts, IsCode part) :
    IsCode (commas parts) := by
  induction parts with
  | nil => exact isCode_nil
  | cons part parts ih =>
      obtain ⟨hpart, hparts⟩ := List.forall_mem_cons.mp h
      cases parts with
      | nil => rwa [commas_singleton]
      | cons next parts => simp [commas_cons_cons, hpart, ih hparts]

@[simp] theorem nameToken_ne_docComment {name text : String} :
    nameToken name ≠ .docComment text := by
  unfold nameToken
  split <;> exact nofun

mutual
theorem isCode_tokens : ∀ e : Expr, IsCode e.tokens
  | .literal value _ => by cases value <;> simp [Expr.tokens, Literal.token]
  | .var .. => by simp [Expr.tokens]
  | .constant name _ => by
      rw [Expr.tokens, constantTokens]
      split <;> simp
  | .assign op target value _ => by
      have htoken : ∀ text, (assignmentToken? op).getD (.symbol .assign) ≠ .docComment text := by
        unfold assignmentToken?
        split <;> exact nofun
      simpa [Expr.tokens, isCode_tokens target, isCode_tokens value] using htoken
  | .binary op left right _ _ => by
      have htoken : ∀ text, op.token ≠ .docComment text := by cases op <;> exact nofun
      simpa [Expr.tokens, isCode_tokens left, isCode_tokens right] using htoken
  | .unary op operand _ _ => by
      have htoken : ∀ text, op.token ≠ .docComment text := by cases op <;> exact nofun
      simpa [Expr.tokens, isCode_tokens operand] using htoken
  | .cast _ operand _ => by simp [Expr.tokens, isCode_tokens operand]
  | .array items style _ => by
      have hitems := isCode_commas (isCode_itemTokens items)
      cases style <;> simpa [Expr.tokens] using hitems
  | .call _ arguments _ => by
      simpa [Expr.tokens] using isCode_commas (isCode_listTokens arguments)
  | .methodCall object _ arguments _ => by
      simpa [Expr.tokens, isCode_tokens object] using isCode_commas (isCode_listTokens arguments)
  | .staticCall _ _ arguments _ => by
      simpa [Expr.tokens] using isCode_commas (isCode_listTokens arguments)
  | .new _ arguments _ => by
      simpa [Expr.tokens] using isCode_commas (isCode_listTokens arguments)
  | .property object _ _ => by simp [Expr.tokens, isCode_tokens object]
  | .element container index _ => by
      simp [Expr.tokens, isCode_tokens container, isCode_tokens index]
  | .slot container _ => by simp [Expr.tokens, isCode_tokens container]
  | .interpolated _ | .invalid _ => isCode_nil

theorem isCode_itemToken : ∀ item : ArrayItem, IsCode item.tokens
  | .plain value => isCode_tokens value
  | .keyed key value => by simp [ArrayItem.tokens, isCode_tokens key, isCode_tokens value]

theorem isCode_listTokens : ∀ es : List Expr, ∀ part ∈ listTokens es, IsCode part
  | [] => nofun
  | e :: es => List.forall_mem_cons.mpr ⟨isCode_tokens e, isCode_listTokens es⟩

theorem isCode_itemTokens : ∀ items : List ArrayItem, ∀ part ∈ itemTokens items, IsCode part
  | [] => nofun
  | item :: items => List.forall_mem_cons.mpr ⟨isCode_itemToken item, isCode_itemTokens items⟩
end

-- Without comments among them all lexemes are items.
theorem itemsOf_eq_self (hlexemes : lexemes.map Lexeme.content = tokens.map .ok)
    (hcode : IsCode tokens) : itemsOf lexemes = lexemes := by
  refine List.filter_eq_self.mpr fun lexeme hlexeme => ?_
  have hcontent := List.mem_map_of_mem (f := Lexeme.content) hlexeme
  rw [hlexemes, List.mem_map] at hcontent
  obtain ⟨token, htoken, hcontent⟩ := hcontent
  unfold Lexeme.doc?
  split
  case h_1 text heq =>
    cases hcontent.trans heq
    exact absurd rfl (hcode _ htoken text)
  case h_2 => rfl

theorem terminator_semicolon {s : Stream} {item : Item} (hs : s.items = [item])
    (hitem : item.content = .ok (.symbol .semicolon)) :
    terminator s = .ok () ⟨[], item.location, s.docs, s.errors⟩ := by
  have hopen : isNext .closeTag s = .ok false s := by
    rw [isNext, bind_of_ok (peek?_cons hs hitem)]
    rfl
  have hsemicolon : expectSymbol .semicolon .semicolon s =
      .ok () ⟨[], item.location, s.docs, s.errors⟩ := by
    rw [expectSymbol, expect, bind_of_ok (take_cons hs hitem)]
    rfl
  rw [terminator, bind_of_ok hopen]
  exact hsemicolon

theorem expressionStatement_tokens {parts : Parts} {s : Stream} {items : List Item} {item : Item}
    {start : Option Location} (h : Reads (Ends 0) parts.expression e.tokens (·.erase = e.erase))
    (hs : s.items = items ++ [item]) (hitems : Spells items e.tokens)
    (hitem : item.content = .ok (.symbol .semicolon)) :
    TooDeep (expressionStatement parts start s) ∨
      ∃ e' location t, expressionStatement parts start s = .ok (.expr e' location) t ∧
        e'.erase = e.erase ∧ t.items = [] ∧ t.errors = s.errors := by
  have hahead : Ahead (Ends 0) [item] := ⟨item, [], _, rfl, hitem, fun _ hl => by cases hl⟩
  rcases h s items [item] hitems hahead hs with hdeep | ⟨e', t, hok, he, ht, herrors⟩
  · exact .inl (bind_tooDeep hdeep)
  · have hrun : expressionStatement parts start s =
        (do return Stmt.expr e' (← spanFrom start)) ⟨[], item.location, t.docs, t.errors⟩ := by
      rw [expressionStatement, bind_of_ok hok, bind_of_ok (terminator_semicolon ht hitem)]
    exact .inr ⟨e', _, _, hrun, he, rfl, herrors⟩

theorem statement_of_startsExpression {parts : Parts} {s : Stream} {item : Item} {rest : List Item}
    {token : Token} (hs : s.items = item :: rest) (hitem : item.content = .ok token)
    (htoken : startsExpression token = true) :
    statement parts s = (some <$> expressionStatement parts (some item.location)) s := by
  have hlocation : location? s = .ok (some item.location) s := by
    rw [location?, get_bind, hs]
    rfl
  rw [statement, bind_of_ok hlocation, bind_of_ok (peek?_cons hs hitem)]
  cases token with
  | symbol symbol => cases symbol <;> first | rfl | cases htoken
  | keyword keyword => cases keyword <;> first | rfl | cases htoken
  | _ => first | rfl | cases htoken

theorem statementAt_tokens {s : Stream} {items : List Item} {item : Item} {depth : Nat}
    (h : Recovers e) (hs : s.items = items ++ [item]) (hitems : Spells items e.tokens)
    (hitem : item.content = .ok (.symbol .semicolon)) :
    TooDeep (statementAt (depth + 1) s) ∨
      ∃ e' location t, statementAt (depth + 1) s = .ok (some (.expr e' location)) t ∧
        e'.erase = e.erase ∧ t.items = [] ∧ t.errors = s.errors := by
  obtain ⟨token, rest, htokens, htoken, _⟩ := h.leads
  obtain ⟨front, others, rfl, hfront, _⟩ := spells_cons_iff.mp (htokens ▸ hitems)
  rw [statementAt, statement_of_startsExpression hs hfront htoken, map_eq_pure_bind]
  let parts : Parts := ⟨(nestedAt depth).expression, statementAt depth⟩
  have hexpression : Reads (Ends 0) parts.expression e.tokens (·.erase = e.erase) := h.expression
  rcases expressionStatement_tokens hexpression hs hitems hitem with
    hdeep | ⟨e', location, t, hok, he, ht, herrors⟩
  · exact .inl (bind_tooDeep hdeep)
  · rw [bind_of_ok hok]
    exact .inr ⟨e', location, t, rfl, he, ht, herrors⟩

theorem program_tokens {s : Stream} {items : List Item} {item : Item} (rounds : Nat)
    (h : Recovers e) (hs : s.items = items ++ [item]) (hitems : Spells items e.tokens)
    (hitem : item.content = .ok (.symbol .semicolon)) :
    (∃ location, .tooDeep location ∈ (program (rounds + 1) s).2) ∨
      ∃ e' location, program (rounds + 1) s = ([.expr e' location], s.errors.reverse) ∧
        e'.erase = e.erase := by
  have hne : s.items ≠ [] := by simp [hs]
  rcases statementAt_tokens h hs hitems hitem with
    ⟨location, t, hdeep⟩ | ⟨e', location, t, hok, he, ht, herrors⟩
  · exact .inl ⟨location, mem_errors_program hne hdeep⟩
  · refine .inr ⟨e', location, ?_, he⟩
    obtain ⟨front, others, hfront⟩ := List.exists_cons_of_ne_nil hne
    have hrest : program rounds t = ([], s.errors.reverse) := by
      cases rounds <;> simp [program, ht, herrors]
    rw [program, hfront]
    simp only [maxDepth, hok, hrest]

end Syntax

open Syntax

theorem parse_eq_or_tooDeep {e : Expr} {lexemes : List Lexeme} (hprintable : e.isPrintable = true)
    (hlexemes : lexemes.map Lexeme.content = (e.tokens ++ [Token.symbol .semicolon]).map .ok) :
    (∃ location, .tooDeep location ∈ (parse lexemes).2) ∨
      ∃ e' location, parse lexemes = ([.expr e' location], []) ∧ e'.erase = e.erase := by
  obtain ⟨items, back, hitems, hspells, hback⟩ := spells_append_iff.mp hlexemes
  obtain ⟨item, rest, rfl, hitem, hrest⟩ := spells_cons_iff.mp hback
  obtain rfl : rest = [] := by simpa [Spells] using hrest
  have hs : (Stream.ofLexemes lexemes).items = items ++ [item] :=
    (itemsOf_eq_self hlexemes (by simp [isCode_tokens e])).trans hitems
  have hparse : parse lexemes = program (items.length + 1) (Stream.ofLexemes lexemes) := by
    simp [parse, hs]
  rw [hparse]
  exact program_tokens items.length (recovers e hprintable) hs hspells hitem

-- The parser gives back every expression from its tokens, wherever they stand in a file,
-- unless it is nested too deep.
theorem parse_tokens {e : Expr} {lexemes : List Lexeme} (hprintable : e.isPrintable = true)
    (hlexemes : lexemes.map Lexeme.content = (e.tokens ++ [Token.symbol .semicolon]).map .ok)
    (hdepth : ∀ location, .tooDeep location ∉ (parse lexemes).2) :
    (parse lexemes).2 = [] ∧
      ∃ e' location, (parse lexemes).1 = [.expr e' location] ∧ e'.erase = e.erase := by
  rcases parse_eq_or_tooDeep hprintable hlexemes with ⟨location, hdeep⟩ | ⟨e', location, hparse, he⟩
  · exact absurd hdeep (hdepth location)
  · rw [hparse]
    exact ⟨rfl, e', location, rfl, he⟩

-- $total[] = -($a - $b) ** -$c->size($d = [1]) * 2
def chainedExpr : Expr :=
  let a := Expr.binary .subtract (.var "a" default) (.var "b" default) default default
  let size := Expr.methodCall (.var "c" default) ⟨"size", default⟩
    [.assign none (.var "d" default) (.array [.plain (.literal (.int 1) default)] .short default)
      default] default
  let power := Expr.binary .power a (.unary .minus size default default) default default
  .assign none (.slot (.var "total" default) default)
    (.binary .multiply (.unary .minus power default default) (.literal (.int 2) default) default
      default) default

def chainedLexemes : List Lexeme :=
  (chainedExpr.tokens ++ [Token.symbol .semicolon]).map fun token => ⟨.ok token, default⟩

theorem parse_tokens_chainedExpr :
    chainedExpr.isPrintable = true ∧ (∀ location, .tooDeep location ∉ (parse chainedLexemes).2) ∧
      (parse chainedLexemes).2 = [] ∧
      ∃ e location, (parse chainedLexemes).1 = [.expr e location] ∧
        e.erase = chainedExpr.erase := by
  have hprintable : chainedExpr.isPrintable = true := by decide
  have hdepth : ∀ location, .tooDeep location ∉ (parse chainedLexemes).2 := by
    have herrors : (parse chainedLexemes).2 = [] := by decide +kernel
    simp [herrors]
  exact ⟨hprintable, hdepth, parse_tokens hprintable (by simp [chainedLexemes]) hdepth⟩

end PhpLint
