import PhpLint.Proofs.Analysis.Fatality
import PhpLint.Proofs.Analysis.Findings

namespace PhpLint

def Expr.isAssignment : Expr → Bool
  | .assign .. => true
  | _ => false

def Stmt.isDeclaration : Stmt → Bool
  | .functionDecl .. | .classDecl .. => true
  | _ => false

-- No variable occurs in the expression.
def Expr.IsClosed (e : Expr) : Prop :=
  ∀ part ∈ e.parts, part.isVariable = false ∧ part.isAssignment = false

instance (e : Expr) : Decidable e.IsClosed :=
  inferInstanceAs (Decidable (∀ part ∈ e.parts, _))

-- A step that neither reads nor changes the variables: one account of it serves for all
-- scopes.
def Detached {α : Type} (x : Dispatcher → Eval α) : Prop :=
  ∀ constants, ∃ (outcome : Except Fatal α) (declared : Scope) (acts : List Act),
    ∀ (d : Dispatcher) (s : State), s.constants = constants →
      x d s = Account.result ⟨outcome, s.scope, declared, acts⟩ d s

namespace Detached

open Eval

variable {α β : Type}

theorem pure (a : α) : Detached fun _ => (Pure.pure a : Eval α) := by
  intro constants
  refine ⟨.ok a, constants, [], ?_⟩
  rintro d s rfl
  rfl

theorem fatal (cause : FatalCause) (location : Location) :
    Detached fun _ => (Eval.fatal cause location : Eval α) := by
  intro constants
  refine ⟨.error ⟨cause, location⟩, constants, [], ?_⟩
  rintro d s rfl
  rfl

theorem visit (node : Node) : Detached fun d => Eval.visit d node := by
  intro constants
  refine ⟨.ok (), constants, [.visit node], ?_⟩
  rintro d s rfl
  rfl

theorem readConstant (name : String) :
    Detached fun _ => (get >>= fun s => Pure.pure (s.constant name) : Eval Value) := by
  intro constants
  refine ⟨.ok (State.constant { constants } name), constants, [], ?_⟩
  rintro d s rfl
  rfl

theorem operate (op : BinaryOp) (left right : Value) (location : Location) :
    Detached fun _ => Eval.operate op left right location := by
  intro constants
  refine ⟨.ok (Value.binary op left right).value, constants,
    (Value.binary op left right).hazard.toList.map fun hazard => .report (hazard.issue location), ?_⟩
  rintro d s rfl
  apply (operate_apply op left right location s).trans
  cases (Value.binary op left right).hazard <;> rfl

theorem bind {x : Dispatcher → Eval α} {next : Dispatcher → α → Eval β} (hx : Detached x)
    (hnext : ∀ a, Detached fun d => next d a) : Detached fun d => x d >>= next d := by
  intro constants
  obtain ⟨outcome, declared, acts, hfirst⟩ := hx constants
  cases outcome with
  | error e =>
      refine ⟨.error e, declared, acts, fun d s hs => ?_⟩
      have hrun := hfirst d s hs
      simp only [Account.result] at hrun ⊢
      rw [EStateM.bind_of_error hrun]
  | ok a =>
      obtain ⟨last, declared', acts', hsecond⟩ := hnext a declared
      refine ⟨last, declared', acts ++ acts', fun d s hs => ?_⟩
      have hrun := hfirst d s hs
      simp only [Account.result] at hrun
      apply (EStateM.bind_of_ok hrun).trans
      apply (hsecond d _ rfl).trans
      simp only [Account.result, State.performAll_append, State.performAll_rebind]

theorem visit_pure (node : Node) (a : α) :
    Detached fun d => Eval.visit d node >>= fun _ => Pure.pure a :=
  (visit node).bind fun _ => pure a

-- Whatever is done in a scope of its own has that scope in place of the outer one.
theorem inScope {x : Dispatcher → Eval α} {inside : Region → Prop} {visited : List Expr}
    (hx : Accounted inside x visited) (scope : Scope) :
    Detached fun d => Eval.inScope scope (x d) := by
  intro constants
  obtain ⟨⟨outcome, inner, declared, acts⟩, hinner⟩ := hx scope constants
  refine ⟨outcome, declared, acts, ?_⟩
  rintro d s rfl
  have hrun := hinner.result_eq d (s := { s with scope }) rfl rfl
  have hacts := State.performAll_rebind d s scope s.constants acts
  simp only [Account.result, hacts] at hrun ⊢
  simp only [Eval.inScope, hrun]
  cases outcome <;> rfl

end Detached

section Expressions

theorem Expr.IsClosed.of_subset {e part : Expr} (h : e.IsClosed) (hsub : part.parts ⊆ e.parts) :
    part.IsClosed :=
  fun inner hinner => h inner (hsub hinner)

-- Only variables and assignments touch the scope.
mutual
theorem detached_evaluate : ∀ e : Expr, e.IsClosed → Detached (evaluate · e)
  | .literal .., _ | .interpolated .., _ => by
      simp only [evaluate]
      exact Detached.visit_pure _ _
  | .constant name _, _ => by
      simp only [evaluate]
      exact (Detached.visit _).bind fun _ => Detached.readConstant name
  | .var name location, h => by
      have hself := (h (.var name location) (by simp [Expr.parts])).1
      cases hself
  | .assign op target value location, h => by
      have hself := (h (.assign op target value location) (by simp [Expr.parts])).2
      cases hself
  | .slot .., _ | .invalid .., _ => by
      simp only [evaluate]
      exact Detached.fatal _ _
  | .binary op left right location _, h => by
      have hleft := detached_evaluate left (h.of_subset (by simp [Expr.parts]))
      have hright := detached_evaluate right (h.of_subset (by simp [Expr.parts]))
      simp only [evaluate]
      refine hleft.bind fun _ => hright.bind fun _ => ?_
      exact (Detached.visit _).bind fun _ => Detached.operate _ _ _ _
  | .element container index _, h => by
      have hcontainer := detached_evaluate container (h.of_subset (by simp [Expr.parts]))
      have hindex := detached_evaluate index (h.of_subset (by simp [Expr.parts]))
      simp only [evaluate]
      exact hcontainer.bind fun _ => hindex.bind fun _ => Detached.visit_pure _ _
  | .unary _ operand _ _, h | .cast _ operand _, h | .property operand _ _, h => by
      have hoperand := detached_evaluate operand (h.of_subset (by simp [Expr.parts]))
      simp only [evaluate]
      exact hoperand.bind fun _ => Detached.visit_pure _ _
  | .array items _ _, h => by
      have hitems := detached_evaluateItems items fun part hpart => h part (by simp [Expr.parts, hpart])
      simp only [evaluate]
      exact hitems.bind fun _ => Detached.visit_pure _ _
  | .call _ arguments _, h | .staticCall _ _ arguments _, h | .new _ arguments _, h => by
      have harguments := detached_evaluateAll arguments fun part hpart =>
        h part (by simp [Expr.parts, hpart])
      simp only [evaluate]
      exact harguments.bind fun _ => Detached.visit_pure _ _
  | .methodCall object _ arguments _, h => by
      have hobject := detached_evaluate object (h.of_subset (by simp [Expr.parts]))
      have harguments := detached_evaluateAll arguments fun part hpart =>
        h part (by simp [Expr.parts, hpart])
      simp only [evaluate]
      exact hobject.bind fun _ => harguments.bind fun _ => Detached.visit_pure _ _

theorem detached_evaluateAll : ∀ es : List Expr,
    (∀ part ∈ listParts es, part.isVariable = false ∧ part.isAssignment = false) →
    Detached (evaluateAll · es)
  | [], _ => by
      simp only [evaluateAll]
      exact Detached.pure _
  | e :: es, h => by
      rw [listParts, List.forall_mem_append] at h
      simp only [evaluateAll]
      refine (detached_evaluate e h.1).bind fun _ => ?_
      exact (detached_evaluateAll es h.2).bind fun _ => Detached.pure _

theorem detached_evaluateItems : ∀ items : List ArrayItem,
    (∀ part ∈ itemParts items, part.isVariable = false ∧ part.isAssignment = false) →
    Detached (evaluateItems · items)
  | [], _ => by
      simp only [evaluateItems]
      exact Detached.pure _
  | .plain value :: items, h => by
      rw [itemParts, List.forall_mem_append] at h
      simp only [evaluateItems]
      refine (detached_evaluate value h.1).bind fun _ => ?_
      exact (detached_evaluateItems items h.2).bind fun _ => Detached.pure _
  | .keyed key value :: items, h => by
      rw [itemParts, List.forall_mem_append, List.forall_mem_append] at h
      simp only [evaluateItems]
      refine (detached_evaluate key h.1.1).bind fun _ => ?_
      refine (detached_evaluate value h.1.2).bind fun _ => ?_
      exact (detached_evaluateItems items h.2).bind fun _ => Detached.pure _
end

end Expressions

section Declarations

theorem detached_parameterScope : ∀ (scope : Scope) (parameters : List Parameter),
    (∀ e ∈ parameters.filterMap (·.default), e.IsClosed) →
    Detached (parameterScope · scope parameters)
  | _, [], _ => by
      simp only [parameterScope]
      exact Detached.pure _
  | scope, parameter :: rest, h => by
      simp only [parameterScope]
      cases hdefault : parameter.default with
      | none =>
          rw [List.filterMap_cons_none hdefault] at h
          exact detached_parameterScope _ rest h
      | some e =>
          rw [List.filterMap_cons_some hdefault, List.forall_mem_cons] at h
          have hrest := detached_parameterScope
            (scope.put parameter.name (.argument parameter.name)) rest h.2
          exact (detached_evaluate e h.1).bind fun _ => hrest

-- A body may do anything, since it has a scope of its own.
theorem detached_body (scope : Scope) (statements : List Stmt) :
    Detached fun d => Eval.inScope scope (executeAll d statements) := by
  have hbody : Accounted (fun _ => True) (executeAll · statements) (visitedBlock statements) :=
    Accounted.executeAll statements fun _ _ _ _ => trivial
  exact Detached.inScope hbody scope

theorem detached_executeMethods (owner : String) : ∀ methods : List Method,
    (∀ e ∈ (methods.filterMap (Method.callable? owner)).flatMap Callable.defaults, e.IsClosed) →
    Detached (executeMethods · owner methods)
  | [], _ => by
      simp only [executeMethods]
      exact Detached.pure _
  | ⟨_, _, none, _⟩ :: methods, h => by
      simp only [executeMethods]
      exact (Detached.visit _).bind fun _ => detached_executeMethods owner methods h
  | ⟨signature, modifiers, some ⟨statements, _⟩, _⟩ :: methods, h => by
      simp only [List.filterMap_cons, Method.callable?, List.flatMap_cons,
        List.forall_mem_append] at h
      simp only [executeMethods]
      refine (Detached.visit _).bind fun _ => ?_
      refine (detached_parameterScope [] signature.parameters h.1).bind fun scope => ?_
      refine (detached_body _ statements).bind fun _ => ?_
      exact detached_executeMethods owner methods h.2

theorem detached_execute {declaration : Stmt} (hdeclaration : declaration.isDeclaration = true)
    (hdefaults : ∀ e ∈ declaration.defaults, e.IsClosed) : Detached (execute · declaration) := by
  cases declaration with
  | functionDecl signature body location =>
      obtain ⟨statements, place⟩ := body
      have hparameters : ∀ e ∈ signature.parameters.filterMap (·.default), e.IsClosed := by
        intro e he
        apply hdefaults
        simpa [Stmt.defaults, Stmt.callables, Callable.defaults] using he
      simp only [execute]
      refine (Detached.visit _).bind fun _ => ?_
      refine (detached_parameterScope [] signature.parameters hparameters).bind fun scope => ?_
      exact detached_body scope statements
  | classDecl header methods location =>
      simp only [execute]
      refine (Detached.visit _).bind fun _ => ?_
      exact detached_executeMethods header.name.name methods hdefaults
  | _ => cases hdeclaration

end Declarations

open EStateM (after)

-- Two states that agree on all but the variables cannot be told apart by a declaration,
-- and each of them has its own variables again afterwards, also after a fatal end.
theorem declarations_have_own_scopes (d : Dispatcher) (declaration : Stmt)
    (hdeclaration : declaration.isDeclaration = true)
    (hdefaults : ∀ e ∈ declaration.defaults, e.IsClosed) (s t : State)
    (hconstants : s.constants = t.constants) (hissues : s.issues = t.issues) :
    (execute d declaration).fault? s = (execute d declaration).fault? t ∧
    (after (execute d declaration) s).issues = (after (execute d declaration) t).issues ∧
    (after (execute d declaration) s).constants = (after (execute d declaration) t).constants ∧
    (after (execute d declaration) s).scope = s.scope ∧
    (after (execute d declaration) t).scope = t.scope := by
  obtain ⟨outcome, declared, acts, hrun⟩ := detached_execute hdeclaration hdefaults t.constants
  have hs := hrun d s hconstants
  have ht := hrun d t rfl
  have hsame : (s.performAll d acts).issues = (t.performAll d acts).issues := by
    rw [Dispatcher.issues_performAll, Dispatcher.issues_performAll, hissues]
  simp only [Eval.fault?, after, hs, ht]
  cases outcome with
  | ok => exact ⟨rfl, hsame, rfl, rfl, rfl⟩
  | error => exact ⟨rfl, hsame, rfl, rfl, rfl⟩

-- function f($y = E_ALL) { $x = $x % 0; $this = $y; }
def rebindingFunction (l : Location) : Stmt :=
  .functionDecl ⟨⟨"f", l⟩, [⟨"y", some (.constant "E_ALL" l), l⟩], none⟩
    ⟨[.expr (.assign none (.var "x" l)
        (.binary .modulo (.var "x" l) (.literal (.int 0) l) l l) l) l,
      .expr (.assign none (.var "this" l) (.var "y" l) l) l], l⟩ l

-- The body rebinds a variable of the same name, reports a hazard and ends fatally.
theorem declarations_have_own_scopes_rebinding :
    let d := Dispatcher.ofPasses []
    let f := rebindingFunction default
    let s : State := { scope := [("x", .int 1)] }
    let t : State := { scope := [("y", .null), ("x", .string "a")] }
    f.isDeclaration = true ∧ (∀ e ∈ f.defaults, e.IsClosed) ∧
    (execute d f).fault? s = some ⟨.assignsThis, default⟩ ∧
    (execute d f).fault? s = (execute d f).fault? t ∧
    (after (execute d f) s).issues = (after (execute d f) t).issues ∧
    (after (execute d f) s).constants = (after (execute d f) t).constants ∧
    (after (execute d f) s).scope = s.scope ∧ (after (execute d f) t).scope = t.scope := by
  intro d f s t
  have hclosed : ∀ e ∈ (rebindingFunction default).defaults, e.IsClosed := by decide
  refine ⟨rfl, hclosed, ?_, declarations_have_own_scopes d f rfl hclosed s t rfl rfl⟩
  rw [Eval.ends_execute]
  rfl

end PhpLint
