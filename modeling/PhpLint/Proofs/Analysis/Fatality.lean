import PhpLint.Proofs.Analysis.Effect

namespace PhpLint

-- Why a write to the place does not end well.
def Expr.writeFault? : Expr → Option Fatal
  | .var name location => if name = "this" then some ⟨.assignsThis, location⟩ else none
  | _ => none

-- Why an expression cannot be analysed, if it cannot: the first reason in the order of
-- evaluation.
mutual
def Expr.fault? : Expr → Option Fatal
  | .assign _ target value _ =>
    if target.isAssignable then target.placeFault?.or (value.fault?.or target.writeFault?)
    else some ⟨.notAssignable, target.location⟩
  | .binary _ left right _ _ => left.fault?.or right.fault?
  | .unary _ operand _ _ => operand.fault?
  | .cast _ operand _ => operand.fault?
  | .array items _ _ => itemsFault? items
  | .call _ arguments _ => listFault? arguments
  | .staticCall _ _ arguments _ => listFault? arguments
  | .new _ arguments _ => listFault? arguments
  | .methodCall object _ arguments _ => object.fault?.or (listFault? arguments)
  | .property object _ _ => object.fault?
  | .element container index _ => container.fault?.or index.fault?
  | .slot _ location => some ⟨.readsSlot, location⟩
  | .invalid location => some ⟨.invalidExpression, location⟩
  | .literal .. | .var .. | .constant .. | .interpolated .. => none

-- The same for what is read to find the target of an assignment.
def Expr.placeFault? : Expr → Option Fatal
  | .property object _ _ => object.fault?
  | .element container index _ => container.placeFault?.or index.fault?
  | .slot container _ => container.placeFault?
  | _ => none

def listFault? : List Expr → Option Fatal
  | [] => none
  | e :: es => e.fault?.or (listFault? es)

def itemsFault? : List ArrayItem → Option Fatal
  | [] => none
  | .plain value :: items => value.fault?.or (itemsFault? items)
  | .keyed key value :: items => key.fault?.or (value.fault?.or (itemsFault? items))
end

def defaultsFault? : List Parameter → Option Fatal
  | [] => none
  | parameter :: rest => (parameter.default.bind Expr.fault?).or (defaultsFault? rest)

mutual
def Stmt.fault? : Stmt → Option Fatal
  | .expr e _ => e.fault?
  | .echo es _ => listFault? es
  | .ret value _ => value.bind Expr.fault?
  | .ifThen condition thenBranch _ => condition.fault?.or thenBranch.fault?
  | .ifElse condition thenBranch elseBranch _ =>
    condition.fault?.or (thenBranch.fault?.or elseBranch.fault?)
  | .loop condition body _ => condition.fault?.or body.fault?
  | .block ⟨statements, _⟩ => blockFault? statements
  | .html _ => none
  | .functionDecl signature ⟨statements, _⟩ _ =>
    (defaultsFault? signature.parameters).or (blockFault? statements)
  | .classDecl _ methods _ => methodsFault? methods
  | .constDecl _ e _ => e.fault?
  | .invalid location => some ⟨.invalidStatement, location⟩

def blockFault? : List Stmt → Option Fatal
  | [] => none
  | s :: ss => s.fault?.or (blockFault? ss)

def methodsFault? : List Method → Option Fatal
  | [] => none
  | ⟨_, _, none, _⟩ :: methods => methodsFault? methods
  | ⟨signature, _, some ⟨statements, _⟩, _⟩ :: methods =>
    (defaultsFault? signature.parameters).or ((blockFault? statements).or (methodsFault? methods))
end

namespace Eval

variable {α β : Type} {d : Dispatcher} {f g : Option Fatal}

def fault? (x : Eval α) (s : State) : Option Fatal :=
  match x s with
  | .ok .. => none
  | .error e _ => some e

-- How a step ends does not depend on the state.
def Ends (x : Eval α) (f : Option Fatal) : Prop :=
  ∀ s, x.fault? s = f

theorem ends_pure (a : α) : Ends (pure a) none :=
  fun _ => rfl

theorem ends_modify (change : State → State) : Ends (modify change) none :=
  fun _ => rfl

theorem Ends.bind {x : Eval α} {next : α → Eval β} (hx : Ends x f) (hnext : ∀ a, Ends (next a) g) :
    Ends (x >>= next) (f.or g) := by
  intro s
  have hs := hx s
  simp only [fault?, Bind.bind, EStateM.bind] at hs ⊢
  cases he : x s with
  | ok a t =>
      rw [he] at hs
      rw [← hs]
      exact hnext a t
  | error e t =>
      rw [he] at hs
      rw [← hs]
      rfl

-- The two usual cases: only the first step or only what follows can fail.
theorem Ends.andThen {x : Eval α} {next : α → Eval β} (hx : Ends x f)
    (hnext : ∀ a, Ends (next a) none) : Ends (x >>= next) f := by
  rw [← Option.or_none (o := f)]
  exact hx.bind hnext

theorem Ends.before {x : Eval α} {next : α → Eval β} (hx : Ends x none)
    (hnext : ∀ a, Ends (next a) f) : Ends (x >>= next) f :=
  hx.bind hnext

theorem ends_visit_pure (node : Node) (a : α) : Ends (visit d node >>= fun _ => pure a) none :=
  (ends_modify _).before fun _ => ends_pure a

theorem ends_operate (op : BinaryOp) (left right : Value) (location : Location) :
    Ends (operate op left right location) none := by
  intro s
  rw [fault?, operate_apply]

theorem ends_current (target : Expr) : Ends (current target) none := by
  intro s
  cases target <;> rfl

theorem ends_store (target : Expr) (value : Value) :
    Ends (store target value) target.writeFault? := by
  intro s
  cases target with
  | var name location =>
      simp only [store, Expr.writeFault?]
      split <;> rfl
  | element container _ _ | slot container _ =>
      simp only [store, Expr.writeFault?]
      split <;> rfl
  | _ => rfl

mutual
theorem ends_evaluate : ∀ e : Expr, Ends (evaluate d e) e.fault?
  | .literal .. | .interpolated .. => by
      rw [evaluate, Expr.fault?]
      exact ends_visit_pure _ _
  | .var .. | .constant .. => by
      rw [evaluate, Expr.fault?]
      exact (ends_modify _).before fun _ => fun _ => rfl
  | .assign op target value location => by
      rw [evaluate, Expr.fault?]
      split
      · refine (ends_evaluateTarget target).bind fun _ => ?_
        refine (ends_evaluate value).bind fun v => ?_
        refine (ends_modify _).before fun _ => ?_
        cases op with
        | none =>
            refine (ends_pure _).before fun _ => ?_
            exact (ends_store target _).andThen fun _ => ends_pure _
        | some op =>
            refine (ends_current target).before fun _ => ?_
            refine (ends_operate _ _ _ _).before fun _ => ?_
            exact (ends_store target _).andThen fun _ => ends_pure _
      · exact fun _ => rfl
  | .binary op left right location opLocation => by
      rw [evaluate, Expr.fault?]
      refine (ends_evaluate left).bind fun _ => (ends_evaluate right).andThen fun _ => ?_
      exact (ends_modify _).before fun _ => ends_operate _ _ _ _
  | .unary _ operand _ _ | .cast _ operand _ | .property operand _ _ => by
      rw [evaluate, Expr.fault?]
      exact (ends_evaluate operand).andThen fun _ => ends_visit_pure _ _
  | .array items _ _ => by
      rw [evaluate, Expr.fault?]
      exact (ends_evaluateItems items).andThen fun _ => ends_visit_pure _ _
  | .call _ arguments _ | .staticCall _ _ arguments _ | .new _ arguments _ => by
      rw [evaluate, Expr.fault?]
      exact (ends_evaluateAll arguments).andThen fun _ => ends_visit_pure _ _
  | .methodCall object _ arguments _ => by
      rw [evaluate, Expr.fault?]
      refine (ends_evaluate object).bind fun _ => (ends_evaluateAll arguments).andThen fun _ => ?_
      exact ends_visit_pure _ _
  | .element container index _ => by
      rw [evaluate, Expr.fault?]
      refine (ends_evaluate container).bind fun _ => (ends_evaluate index).andThen fun _ => ?_
      exact ends_visit_pure _ _
  | .slot .. | .invalid .. => by
      rw [evaluate, Expr.fault?]
      exact fun _ => rfl

theorem ends_evaluateTarget : ∀ target : Expr, Ends (evaluateTarget d target) target.placeFault?
  | .property object _ _ => by
      rw [evaluateTarget, Expr.placeFault?]
      exact (ends_evaluate object).andThen fun _ => ends_pure _
  | .element container index _ => by
      rw [evaluateTarget, Expr.placeFault?]
      refine (ends_evaluateTarget container).bind fun _ => ?_
      exact (ends_evaluate index).andThen fun _ => ends_pure _
  | .slot container _ => by
      rw [evaluateTarget, Expr.placeFault?]
      exact ends_evaluateTarget container
  | .literal .. | .var .. | .constant .. | .assign .. | .binary .. | .unary .. | .cast ..
  | .array .. | .call .. | .methodCall .. | .staticCall .. | .new .. | .interpolated ..
  | .invalid .. => by
      rw [evaluateTarget, Expr.placeFault?]
      · exact ends_pure _
      all_goals simp

theorem ends_evaluateAll : ∀ es : List Expr, Ends (evaluateAll d es) (listFault? es)
  | [] => by
      rw [evaluateAll, listFault?]
      exact ends_pure _
  | e :: es => by
      rw [evaluateAll, listFault?]
      exact (ends_evaluate e).bind fun _ => (ends_evaluateAll es).andThen fun _ => ends_pure _

theorem ends_evaluateItems : ∀ items : List ArrayItem,
    Ends (evaluateItems d items) (itemsFault? items)
  | [] => by
      rw [evaluateItems, itemsFault?]
      exact ends_pure _
  | .plain value :: items => by
      rw [evaluateItems, itemsFault?]
      refine (ends_evaluate value).bind fun _ => ?_
      exact (ends_evaluateItems items).andThen fun _ => ends_pure _
  | .keyed key value :: items => by
      rw [evaluateItems, itemsFault?]
      refine (ends_evaluate key).bind fun _ => (ends_evaluate value).bind fun _ => ?_
      exact (ends_evaluateItems items).andThen fun _ => ends_pure _
end

theorem Ends.inScope {x : Eval α} (hx : Ends x f) (scope : Scope) : Ends (inScope scope x) f := by
  intro s
  have hs := hx { s with scope }
  simp only [fault?, Eval.inScope] at hs ⊢
  cases he : x { s with scope } <;> simpa [he] using hs

theorem Ends.onBranch {x : Eval Unit} (hx : Ends x f) : Ends (onBranch x) f := by
  intro s
  have hs := hx s
  simp only [fault?, onBranch_apply] at hs ⊢
  cases he : x s <;> simpa [he] using hs

theorem ends_parameterScope : ∀ (scope : Scope) (parameters : List Parameter),
    Ends (parameterScope d scope parameters) (defaultsFault? parameters)
  | _, [] => by
      rw [parameterScope, defaultsFault?]
      exact ends_pure _
  | scope, parameter :: rest => by
      have hrest := ends_parameterScope (scope.put parameter.name (.argument parameter.name)) rest
      rw [parameterScope, defaultsFault?]
      cases parameter.default with
      | none => exact hrest
      | some e => exact (ends_evaluate e).bind fun _ => hrest

mutual
theorem ends_execute : ∀ s : Stmt, Ends (execute d s) s.fault?
  | .expr e _ => by
      rw [execute, Stmt.fault?]
      exact (ends_evaluate e).andThen fun _ => ends_modify _
  | .echo es _ => by
      rw [execute, Stmt.fault?]
      exact (ends_evaluateAll es).andThen fun _ => ends_modify _
  | .ret none _ => by
      rw [execute, Stmt.fault?]
      exact ends_modify _
  | .ret (some e) _ => by
      rw [execute, Stmt.fault?]
      exact (ends_evaluate e).andThen fun _ => ends_modify _
  | .ifThen condition thenBranch _ => by
      rw [execute, Stmt.fault?]
      refine (ends_evaluate condition).bind fun _ => (ends_modify _).before fun _ => ?_
      exact (ends_execute thenBranch).onBranch.andThen fun _ => ends_modify _
  | .ifElse condition thenBranch elseBranch _ => by
      rw [execute, Stmt.fault?]
      refine (ends_evaluate condition).bind fun _ => (ends_modify _).before fun _ => ?_
      refine (ends_execute thenBranch).onBranch.bind fun _ => ?_
      exact (ends_execute elseBranch).onBranch.andThen fun _ => ends_modify _
  | .loop condition body _ => by
      rw [execute, Stmt.fault?]
      refine (ends_modify _).before fun _ => ?_
      refine (ends_evaluate condition).bind fun _ => (ends_modify _).before fun _ => ?_
      exact (ends_execute body).andThen fun _ => ends_modify _
  | .block ⟨statements, _⟩ => by
      rw [execute, Stmt.fault?]
      exact (ends_modify _).before fun _ => ends_executeAll statements
  | .html _ => by
      rw [execute, Stmt.fault?]
      exact ends_modify _
  | .functionDecl signature ⟨statements, _⟩ _ => by
      rw [execute, Stmt.fault?]
      refine (ends_modify _).before fun _ => ?_
      refine (ends_parameterScope _ _).bind fun scope => ?_
      exact (ends_executeAll statements).inScope scope
  | .classDecl _ methods _ => by
      rw [execute, Stmt.fault?]
      exact (ends_modify _).before fun _ => ends_executeMethods _ methods
  | .constDecl _ e _ => by
      rw [execute, Stmt.fault?]
      refine (ends_evaluate e).andThen fun _ => (ends_modify _).before fun _ => ?_
      split
      · exact ends_modify _
      · exact ends_pure _
  | .invalid _ => by
      rw [execute, Stmt.fault?]
      exact fun _ => rfl

theorem ends_executeAll : ∀ ss : List Stmt, Ends (executeAll d ss) (blockFault? ss)
  | [] => by
      rw [executeAll, blockFault?]
      exact ends_pure _
  | s :: ss => by
      rw [executeAll, blockFault?]
      exact (ends_execute s).bind fun _ => ends_executeAll ss

theorem ends_executeMethods (className : String) : ∀ methods : List Method,
    Ends (executeMethods d className methods) (methodsFault? methods)
  | [] => by
      rw [executeMethods, methodsFault?]
      exact ends_pure _
  | ⟨_, _, none, _⟩ :: methods => by
      rw [executeMethods, methodsFault?]
      exact (ends_modify _).before fun _ => ends_executeMethods className methods
  | ⟨signature, modifiers, some ⟨statements, _⟩, _⟩ :: methods => by
      rw [executeMethods, methodsFault?]
      refine (ends_modify _).before fun _ => ?_
      refine (ends_parameterScope _ _).bind fun scope => ?_
      refine ((ends_executeAll statements).inScope _).bind fun _ => ?_
      exact ends_executeMethods className methods
end

-- A statement without a fault is analysed to its end, whatever the state is.
theorem exists_execute_ok {s : Stmt} (h : s.fault? = none) (st : State) :
    ∃ t, execute d s st = .ok () t := by
  have hs : (execute d s).fault? st = none := h ▸ ends_execute s st
  rw [fault?] at hs
  cases he : execute d s st with
  | ok a t => exact ⟨t, rfl⟩
  | error e t => simp [he] at hs

end Eval

end PhpLint
