import PhpLint.Proofs.Analysis.Findings
import PhpLint.Proofs.Syntax.Placeholders

namespace PhpLint

-- The placeholder that a fatal end is about, if it is about one.
def Fatal.placeholder? : Fatal → Option Piece
  | ⟨.invalidStatement, location⟩ => some (.stmt (.invalid location))
  | ⟨.invalidExpression, location⟩ => some (.expr (.invalid location))
  | _ => none

-- A fatal end that is about a placeholder is about one of these nodes.
def Blames (fault : Option Fatal) (pieces : List Piece) : Prop :=
  ∀ fatal, fault = some fatal → ∀ piece, fatal.placeholder? = some piece → piece ∈ pieces

namespace Blames

variable {fault other : Option Fatal} {pieces more : List Piece}

theorem none : Blames none pieces := by
  rintro fatal ⟨⟩

theorem of_placeholder?_eq_none {fatal : Fatal} (h : fatal.placeholder? = Option.none) :
    Blames (some fatal) pieces := by
  rintro _ ⟨⟩ piece hpiece
  rw [h] at hpiece
  cases hpiece

theorem mono (h : Blames fault pieces) (hsub : pieces ⊆ more) : Blames fault more :=
  fun fatal hfatal piece hpiece => hsub (h fatal hfatal piece hpiece)

theorem or (hfault : Blames fault pieces) (hother : Blames other more) :
    Blames (fault.or other) (pieces ++ more) := by
  cases fault with
  | none => exact hother.mono (List.subset_append_right _ _)
  | some fatal => exact hfault.mono (List.subset_append_left _ _)

theorem writeFault? (target : Expr) : Blames target.writeFault? [] := by
  fun_cases Expr.writeFault? target with
  | case1 => exact of_placeholder?_eq_none rfl
  | case2 => exact none
  | case3 => exact none

mutual
theorem fault? : ∀ e : Expr, Blames e.fault? e.pieces
  | .literal .. | .var .. | .constant .. | .interpolated .. => none
  | .assign op target value location => by
      rw [Expr.fault?]
      split
      · exact ((placeFault? target).or ((fault? value).or (writeFault? target))).mono
          (by simp [Expr.pieces, Expr.parts])
      · exact of_placeholder?_eq_none rfl
  | .binary _ left right _ _ => by
      rw [Expr.fault?]
      exact ((fault? left).or (fault? right)).mono (by simp [Expr.pieces, Expr.parts])
  | .unary _ operand _ _ | .cast _ operand _ | .property operand _ _ => by
      rw [Expr.fault?]
      exact (fault? operand).mono (by simp [Expr.pieces, Expr.parts])
  | .array items _ _ => by
      rw [Expr.fault?]
      exact (itemsFault? items).mono (by simp [Expr.pieces, Expr.parts, map_itemParts])
  | .call _ arguments _ | .staticCall _ _ arguments _ | .new _ arguments _ => by
      rw [Expr.fault?]
      exact (listFault? arguments).mono (by simp [Expr.pieces, Expr.parts, map_listParts])
  | .methodCall object _ arguments _ => by
      rw [Expr.fault?]
      exact ((fault? object).or (listFault? arguments)).mono
        (by simp [Expr.pieces, Expr.parts, map_listParts])
  | .element container index _ => by
      rw [Expr.fault?]
      exact ((fault? container).or (fault? index)).mono (by simp [Expr.pieces, Expr.parts])
  | .slot .. => of_placeholder?_eq_none rfl
  | .invalid location => by
      rw [Expr.fault?]
      rintro _ ⟨⟩ piece ⟨⟩
      exact List.mem_cons_self

theorem placeFault? : ∀ target : Expr, Blames target.placeFault? target.pieces
  | .property object _ _ => by
      rw [Expr.placeFault?]
      exact (fault? object).mono (by simp [Expr.pieces, Expr.parts])
  | .element container index _ => by
      rw [Expr.placeFault?]
      exact ((placeFault? container).or (fault? index)).mono (by simp [Expr.pieces, Expr.parts])
  | .slot container _ => by
      rw [Expr.placeFault?]
      exact (placeFault? container).mono (by simp [Expr.pieces, Expr.parts])
  | .literal .. | .var .. | .constant .. | .assign .. | .binary .. | .unary .. | .cast ..
  | .array .. | .call .. | .methodCall .. | .staticCall .. | .new .. | .interpolated ..
  | .invalid .. => none

theorem listFault? : ∀ es : List Expr, Blames (PhpLint.listFault? es) (es.flatMap Expr.pieces)
  | [] => none
  | e :: es => by
      rw [PhpLint.listFault?, List.flatMap_cons]
      exact (fault? e).or (listFault? es)

theorem itemsFault? : ∀ items : List ArrayItem,
    Blames (PhpLint.itemsFault? items) (items.flatMap ArrayItem.pieces)
  | [] => none
  | .plain value :: items => by
      rw [PhpLint.itemsFault?, List.flatMap_cons]
      exact (fault? value).or (itemsFault? items)
  | .keyed key value :: items => by
      rw [PhpLint.itemsFault?, List.flatMap_cons, ArrayItem.pieces, List.append_assoc]
      exact (fault? key).or ((fault? value).or (itemsFault? items))
end

theorem defaultsFault? (parameters : List Parameter) :
    Blames (PhpLint.defaultsFault? parameters) (parameters.flatMap Parameter.pieces) := by
  induction parameters with
  | nil => exact none
  | cons parameter rest ih =>
      rw [PhpLint.defaultsFault?, List.flatMap_cons]
      refine Blames.or ?_ ih
      cases hdefault : parameter.default with
      | none => exact none
      | some e => simpa [Parameter.pieces, hdefault] using fault? e

mutual
theorem ofStmt : ∀ s : Stmt, Blames s.fault? s.pieces
  | .expr e _ | .constDecl _ e _ => by
      rw [Stmt.fault?]
      exact (fault? e).mono (by simp [Stmt.pieces])
  | .echo es _ => by
      rw [Stmt.fault?]
      exact (listFault? es).mono (by simp [Stmt.pieces])
  | .ret Option.none _ | .html _ => none
  | .ret (some e) _ => by
      rw [Stmt.fault?]
      exact (fault? e).mono (by simp [Stmt.pieces])
  | .ifThen condition thenBranch _ => by
      rw [Stmt.fault?]
      exact ((fault? condition).or (ofStmt thenBranch)).mono (by simp [Stmt.pieces])
  | .ifElse condition thenBranch elseBranch _ => by
      rw [Stmt.fault?]
      exact ((fault? condition).or ((ofStmt thenBranch).or (ofStmt elseBranch))).mono
        (by simp [Stmt.pieces])
  | .loop condition body _ => by
      rw [Stmt.fault?]
      exact ((fault? condition).or (ofStmt body)).mono (by simp [Stmt.pieces])
  | .block ⟨statements, _⟩ => by
      rw [Stmt.fault?]
      exact (ofBlock statements).mono (by simp [Stmt.pieces])
  | .functionDecl signature ⟨statements, _⟩ _ => by
      rw [Stmt.fault?]
      exact ((defaultsFault? signature.parameters).or (ofBlock statements)).mono
        (by simp [Stmt.pieces, Signature.pieces])
  | .classDecl _ methods _ => by
      rw [Stmt.fault?]
      exact (ofMethods methods).mono (by simp [Stmt.pieces])
  | .invalid location => by
      rw [Stmt.fault?]
      rintro _ ⟨⟩ piece ⟨⟩
      simp [Stmt.pieces]

theorem ofBlock : ∀ ss : List Stmt, Blames (blockFault? ss) (blockPieces ss)
  | [] => none
  | s :: ss => by
      rw [blockFault?, blockPieces]
      exact (ofStmt s).or (ofBlock ss)

theorem ofMethods : ∀ methods : List Method, Blames (methodsFault? methods) (methodPieces methods)
  | [] => none
  | ⟨signature, _, Option.none, _⟩ :: methods => by
      rw [methodsFault?, methodPieces]
      exact (ofMethods methods).mono (by simp)
  | ⟨signature, _, some ⟨statements, _⟩, _⟩ :: methods => by
      rw [methodsFault?, methodPieces, List.append_assoc]
      exact (defaultsFault? signature.parameters).or ((ofBlock statements).or (ofMethods methods))
end

end Blames

-- Why a statement without placeholders cannot be analysed is not that one is missing.
theorem placeholder?_of_isWhole {s : Stmt} (hwhole : s.IsWhole) {fatal : Fatal}
    (h : s.fault? = some fatal) : fatal.placeholder? = none := by
  cases hplaceholder : fatal.placeholder? with
  | none => rfl
  | some piece =>
      have hvalid := hwhole piece (Blames.ofStmt s fatal h piece hplaceholder)
      obtain ⟨cause, location⟩ := fatal
      cases cause <;> cases hplaceholder <;> cases hvalid

theorem message_of_placeholder?_eq_none {fatal : Fatal} (h : fatal.placeholder? = none) :
    fatal.issue.message ≠ "Invalid statement." ∧ fatal.issue.message ≠ "Invalid expression." := by
  obtain ⟨cause, location⟩ := fatal
  cases cause <;> simp_all [Fatal.placeholder?, Fatal.issue, FatalCause.message]

theorem exists_fault_of_mem_analyze {settings : Settings} {statements : List Stmt} {issue : Issue}
    (h : issue ∈ analyze settings statements) (hcode : issue.code = "compiler.fatal") :
    ∃ s ∈ statements, ∃ fatal, s.fault? = some fatal ∧ issue = fatal.issue := by
  obtain ⟨act, hdue, hmem⟩ := exists_act_of_mem_analyze h
  cases act with
  | visit node =>
      obtain ⟨rule, -, hrule⟩ := List.mem_flatMap.mp hmem
      exact absurd ((Rule.code_of_mem_found hrule).symm.trans hcode) rule.code_ne.2
  | report other =>
      rw [List.mem_singleton.mp hmem] at hcode ⊢
      rcases hdue with ⟨-, -, hazard, e, -, rfl⟩ | ⟨s, hs, fatal, hfault, -, hissue⟩
      · simp [Hazard.issue] at hcode
      · exact ⟨s, hs, fatal, hfault, hissue⟩

-- Errors of parsing and placeholders go together. So in a source without errors no
-- statement is rejected because of a placeholder.
theorem no_errors_iff_no_placeholders (lexemes : List Lexeme) :
    ((parse lexemes).2 = [] ↔ ∀ statement ∈ (parse lexemes).1, statement.IsWhole) ∧
    ∀ settings source file issues, analyzeSource settings source file = .ok issues →
      ∀ issue ∈ issues, issue.code = "compiler.fatal" →
        issue.message ≠ "Invalid statement." ∧ issue.message ≠ "Invalid expression." := by
  refine ⟨errors_parse_eq_nil_iff lexemes, ?_⟩
  intro settings source file issues hok issue hissue hcode
  unfold analyzeSource at hok
  split at hok
  · next statements hparse =>
    cases hok
    have hwhole := (errors_parse_eq_nil_iff (lex source file)).mp (congrArg Prod.snd hparse)
    obtain ⟨s, hs, fatal, hfault, rfl⟩ := exists_fault_of_mem_analyze hissue hcode
    have hmem : s ∈ (parse (lex source file)).1 := by
      rw [← parseSource, hparse]
      exact hs
    exact message_of_placeholder?_eq_none (placeholder?_of_isWhole (hwhole s hmem) hfault)
  · cases hok

end PhpLint
