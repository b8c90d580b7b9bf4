import PhpLint.Analysis.Evaluation
import PhpLint.Proofs.Step
import PhpLint.Proofs.Syntax.Parts

namespace PhpLint

namespace Eval

theorem operate_apply (op : BinaryOp) (left right : Value) (location : Location) (s : State) :
    operate op left right location s =
      .ok (Value.binary op left right).value ((Value.binary op left right).hazard.elim s
        fun hazard => s.report (hazard.issue location)) := by
  simp only [operate]
  cases (Value.binary op left right).hazard <;> rfl

theorem onBranch_apply (x : Eval Unit) (s : State) :
    onBranch x s = match x s with
      | .ok _ t => .ok () { t with scope := s.scope }
      | .error e t => .error e t := by
  rw [onBranch, EStateM.get_bind]
  simp only [bind, EStateM.bind]
  cases x s <;> rfl

end Eval

open Eval
open EStateM (after after_of_ok Keeps)

-- A relation between the states before and after a step that may assign the given
-- variables. Whatever the analysis does is made of these changes.
structure Effect (d : Dispatcher) (R : List String → State → State → Prop) : Prop where
  refl {names s} : R names s s
  trans {names s t u} : R names s t → R names t u → R names s u
  visit {names s} node : R names s (s.visit d node)
  report {names s} issue : R names s (s.report issue)
  put {names s name} value : name ∈ names → R names s { s with scope := s.scope.put name value }
  forget {names s some} : some ⊆ names → R names s { s with scope := s.scope.forget some }
  restore {names inner s scope t} :
    R inner { s with scope } t → R names s { t with scope := s.scope }

namespace Effect

variable {d : Dispatcher} {R : List String → State → State → Prop} {α β : Type}
  {names : List String}

theorem keeps_pure (h : Effect d R) (a : α) : Keeps (R names) (pure a : Eval α) :=
  fun _ => h.refl

theorem keeps_bind (h : Effect d R) {x : Eval α} {f : α → Eval β} (hx : Keeps (R names) x)
    (hf : ∀ a, Keeps (R names) (f a)) : Keeps (R names) (x >>= f) :=
  hx.bind hf fun _ _ _ => h.trans

theorem keeps_fatal (h : Effect d R) (cause : FatalCause) (location : Location) :
    Keeps (R names) (fatal cause location : Eval α) :=
  fun _ => h.refl

theorem keeps_get (h : Effect d R) : Keeps (R names) (get : Eval State) :=
  fun _ => h.refl

theorem keeps_visit (h : Effect d R) (node : Node) : Keeps (R names) (Eval.visit d node) :=
  fun _ => h.visit node

-- The end of most evaluations.
theorem keeps_visit_pure (h : Effect d R) (node : Node) (a : α) :
    Keeps (R names) (Eval.visit d node >>= fun _ => pure a) :=
  h.keeps_bind (h.keeps_visit node) fun _ => h.keeps_pure a

theorem keeps_operate (h : Effect d R) (op : BinaryOp) (left right : Value) (location : Location) :
    Keeps (R names) (operate op left right location) := by
  intro s
  rw [after_of_ok (operate_apply op left right location s)]
  cases (Value.binary op left right).hazard with
  | none => exact h.refl
  | some hazard => exact h.report _

theorem keeps_current (h : Effect d R) (target : Expr) : Keeps (R names) (current target) := by
  unfold current
  split
  · exact h.keeps_bind h.keeps_get fun _ => h.keeps_pure _
  · exact h.keeps_pure _

theorem keeps_store (h : Effect d R) {target : Expr} (value : Value)
    (hroot : target.root?.toList ⊆ names) : Keeps (R names) (store target value) := by
  cases target with
  | var name location =>
      simp only [store]
      split
      · exact h.keeps_fatal _ _
      · exact fun _ => h.put value (hroot (by simp [Expr.root?]))
  | element container _ _ | slot container _ =>
      simp only [Expr.root?] at hroot
      simp only [store]
      split
      case h_1 name he => exact fun _ => h.put .unknown (hroot (by simp [he]))
      case h_2 => exact h.keeps_pure _
  | _ => exact h.keeps_pure _

-- An expression assigns at most the variables it is said to assign.
mutual
theorem keeps_evaluate (h : Effect d R) :
    ∀ e : Expr, e.assigned ⊆ names → Keeps (R names) (evaluate d e)
  | .literal .., _ => by
      rw [evaluate]
      exact h.keeps_visit_pure _ _
  | .var .., _ | .constant .., _ => by
      rw [evaluate]
      exact h.keeps_bind (h.keeps_visit _) fun _ => h.keeps_bind h.keeps_get fun _ => h.keeps_pure _
  | .assign op target value location, hsub => by
      simp only [Expr.assigned, List.append_subset] at hsub
      obtain ⟨⟨hroot, htarget⟩, hvalue⟩ := hsub
      rw [evaluate]
      split
      · refine h.keeps_bind (h.keeps_evaluateTarget target htarget) fun _ => ?_
        refine h.keeps_bind (h.keeps_evaluate value hvalue) fun v => ?_
        refine h.keeps_bind (h.keeps_visit _) fun _ => ?_
        cases op with
        | none =>
            refine h.keeps_bind (h.keeps_pure _) fun _ => ?_
            exact h.keeps_bind (h.keeps_store _ hroot) fun _ => h.keeps_pure _
        | some op =>
            refine h.keeps_bind (h.keeps_current _) fun _ => ?_
            refine h.keeps_bind (h.keeps_operate _ _ _ _) fun _ => ?_
            exact h.keeps_bind (h.keeps_store _ hroot) fun _ => h.keeps_pure _
      · exact h.keeps_fatal _ _
  | .binary op left right location opLocation, hsub => by
      simp only [Expr.assigned, List.append_subset] at hsub
      rw [evaluate]
      refine h.keeps_bind (h.keeps_evaluate left hsub.1) fun _ => ?_
      refine h.keeps_bind (h.keeps_evaluate right hsub.2) fun _ => ?_
      exact h.keeps_bind (h.keeps_visit _) fun _ => h.keeps_operate _ _ _ _
  | .unary _ operand _ _, hsub | .cast _ operand _, hsub => by
      rw [evaluate]
      refine h.keeps_bind (h.keeps_evaluate operand hsub) fun _ => ?_
      exact h.keeps_visit_pure _ _
  | .array items style location, hsub => by
      rw [evaluate]
      refine h.keeps_bind (h.keeps_evaluateItems items hsub) fun _ => ?_
      exact h.keeps_visit_pure _ _
  | .call _ arguments _, hsub | .staticCall _ _ arguments _, hsub | .new _ arguments _, hsub => by
      rw [evaluate]
      refine h.keeps_bind (h.keeps_evaluateAll arguments hsub) fun _ => ?_
      exact h.keeps_visit_pure _ _
  | .methodCall object method arguments location, hsub => by
      simp only [Expr.assigned, List.append_subset] at hsub
      rw [evaluate]
      refine h.keeps_bind (h.keeps_evaluate object hsub.1) fun _ => ?_
      refine h.keeps_bind (h.keeps_evaluateAll arguments hsub.2) fun _ => ?_
      exact h.keeps_visit_pure _ _
  | .property object name location, hsub => by
      rw [evaluate]
      refine h.keeps_bind (h.keeps_evaluate object hsub) fun _ => ?_
      exact h.keeps_visit_pure _ _
  | .element container index location, hsub => by
      simp only [Expr.assigned, List.append_subset] at hsub
      rw [evaluate]
      refine h.keeps_bind (h.keeps_evaluate container hsub.1) fun _ => ?_
      refine h.keeps_bind (h.keeps_evaluate index hsub.2) fun _ => ?_
      exact h.keeps_visit_pure _ _
  | .slot .., _ => by
      rw [evaluate]
      exact h.keeps_fatal _ _
  | .interpolated .., _ => by
      rw [evaluate]
      exact h.keeps_visit_pure _ _
  | .invalid .., _ => by
      rw [evaluate]
      exact h.keeps_fatal _ _

theorem keeps_evaluateTarget (h : Effect d R) :
    ∀ target : Expr, target.assigned ⊆ names → Keeps (R names) (evaluateTarget d target)
  | .property object name location, hsub => by
      rw [evaluateTarget]
      exact h.keeps_bind (h.keeps_evaluate object hsub) fun _ => h.keeps_pure _
  | .element container index location, hsub => by
      simp only [Expr.assigned, List.append_subset] at hsub
      rw [evaluateTarget]
      refine h.keeps_bind (h.keeps_evaluateTarget container hsub.1) fun _ => ?_
      exact h.keeps_bind (h.keeps_evaluate index hsub.2) fun _ => h.keeps_pure _
  | .slot container location, hsub => by
      rw [evaluateTarget]
      exact h.keeps_evaluateTarget container hsub
  | .literal .., _ | .var .., _ | .constant .., _ | .assign .., _ | .binary .., _ | .unary .., _
  | .cast .., _ | .array .., _ | .call .., _ | .methodCall .., _ | .staticCall .., _ | .new .., _
  | .interpolated .., _ | .invalid .., _ => by
      rw [evaluateTarget]
      · exact h.keeps_pure _
      all_goals simp

theorem keeps_evaluateAll (h : Effect d R) :
    ∀ es : List Expr, listAssigned es ⊆ names → Keeps (R names) (evaluateAll d es)
  | [], _ => by
      rw [evaluateAll]
      exact h.keeps_pure _
  | e :: es, hsub => by
      simp only [listAssigned, List.append_subset] at hsub
      rw [evaluateAll]
      refine h.keeps_bind (h.keeps_evaluate e hsub.1) fun _ => ?_
      exact h.keeps_bind (h.keeps_evaluateAll es hsub.2) fun _ => h.keeps_pure _

theorem keeps_evaluateItems (h : Effect d R) :
    ∀ items : List ArrayItem, itemsAssigned items ⊆ names →
      Keeps (R names) (evaluateItems d items)
  | [], _ => by
      rw [evaluateItems]
      exact h.keeps_pure _
  | .plain value :: items, hsub => by
      simp only [itemsAssigned, List.append_subset] at hsub
      rw [evaluateItems]
      refine h.keeps_bind (h.keeps_evaluate value hsub.1) fun _ => ?_
      exact h.keeps_bind (h.keeps_evaluateItems items hsub.2) fun _ => h.keeps_pure _
  | .keyed key value :: items, hsub => by
      simp only [itemsAssigned, List.append_subset] at hsub
      rw [evaluateItems]
      refine h.keeps_bind (h.keeps_evaluate key hsub.1.1) fun _ => ?_
      refine h.keeps_bind (h.keeps_evaluate value hsub.1.2) fun _ => ?_
      exact h.keeps_bind (h.keeps_evaluateItems items hsub.2) fun _ => h.keeps_pure _
end

theorem keeps_inScope (h : Effect d R) {inner : List String} {scope : Scope} {x : Eval α}
    (hx : Keeps (R inner) x) : Keeps (R names) (inScope scope x) := by
  intro s
  have hs := hx { s with scope }
  simp only [after, inScope] at hs ⊢
  cases he : x { s with scope } with
  | ok a t =>
      rw [he] at hs
      exact h.restore hs
  | error e t =>
      rw [he] at hs
      exact h.restore hs

theorem keeps_onBranch (h : Effect d R) {x : Eval Unit} (hx : Keeps (R names) x) :
    Keeps (R names) (onBranch x) := by
  intro s
  have hs : R names { s with scope := s.scope } (x.after s) := hx s
  simp only [after, onBranch_apply] at hs ⊢
  cases he : x s with
  | ok a t =>
      rw [he] at hs
      exact h.restore hs
  | error e t =>
      rw [he] at hs
      exact hs

theorem keeps_parameterScope (h : Effect d R) :
    ∀ (scope : Scope) (parameters : List Parameter),
      (∀ e ∈ parameters.filterMap (·.default), Keeps (R names) (evaluate d e)) →
      Keeps (R names) (parameterScope d scope parameters)
  | _, [], _ => by
      rw [parameterScope]
      exact h.keeps_pure _
  | scope, parameter :: rest, hdefault => by
      have hrest := h.keeps_parameterScope (scope.put parameter.name (.argument parameter.name))
        rest fun e he => hdefault e (by
          simp only [List.mem_filterMap, List.mem_cons] at he ⊢
          obtain ⟨p, hp, heq⟩ := he
          exact ⟨p, .inr hp, heq⟩)
      rw [parameterScope]
      split
      case h_1 default heq =>
        refine h.keeps_bind ?_ fun _ => hrest
        exact hdefault default (by simp [heq])
      case h_2 => exact hrest

end Effect

-- What the statements among the given ones do besides the changes above: defaults are
-- evaluated outside of the scope they belong to, and constants are declared.
structure Effect.Allows (d : Dispatcher) (R : List String → State → State → Prop)
    (parts : List Stmt) : Prop where
  default part {e} : part ∈ parts → e ∈ part.defaults → ∀ names, Keeps (R names) (evaluate d e)
  declare {name e location} : Stmt.constDecl name e location ∈ parts →
    ∀ names s value, R names s { s with constants := s.constants.put name.name value }

theorem Effect.Allows.mono {d : Dispatcher} {R : List String → State → State → Prop}
    {parts some : List Stmt} (h : Effect.Allows d R parts) (hsub : some ⊆ parts) :
    Effect.Allows d R some :=
  ⟨fun part _ hp => h.default part (hsub hp), fun hp => h.declare (hsub hp)⟩

namespace Effect

variable {d : Dispatcher} {R : List String → State → State → Prop} {names : List String}

theorem keeps_forget (h : Effect d R) {some : List String} (hsub : some ⊆ names) :
    Keeps (R names) (Eval.forget some) :=
  fun _ => h.forget hsub

mutual
theorem keeps_execute (h : Effect d R) :
    ∀ (names : List String) (s : Stmt), Effect.Allows d R s.parts → s.assigned ⊆ names →
      Keeps (R names) (execute d s)
  | names, .expr e location, _, hsub => by
      rw [execute]
      exact h.keeps_bind (h.keeps_evaluate e hsub) fun _ => h.keeps_visit _
  | names, .echo es location, _, hsub => by
      rw [execute]
      exact h.keeps_bind (h.keeps_evaluateAll es hsub) fun _ => h.keeps_visit _
  | names, .ret none location, _, _ => by
      rw [execute]
      exact h.keeps_visit _
  | names, .ret (some e) location, _, hsub => by
      rw [execute]
      exact h.keeps_bind (h.keeps_evaluate e hsub) fun _ => h.keeps_visit _
  | names, .ifThen condition thenBranch location, hallow, hsub => by
      simp only [Stmt.assigned, List.append_subset] at hsub
      have hthen := h.keeps_execute names thenBranch (hallow.mono (by simp [Stmt.parts])) hsub.2
      rw [execute]
      refine h.keeps_bind (h.keeps_evaluate condition hsub.1) fun _ => ?_
      refine h.keeps_bind (h.keeps_visit _) fun _ => ?_
      exact h.keeps_bind (h.keeps_onBranch hthen) fun _ => h.keeps_forget hsub.2
  | names, .ifElse condition thenBranch elseBranch location, hallow, hsub => by
      simp only [Stmt.assigned, List.append_subset] at hsub
      obtain ⟨⟨hcondition, hsubThen⟩, hsubElse⟩ := hsub
      have hthen := h.keeps_execute names thenBranch (hallow.mono (by simp [Stmt.parts])) hsubThen
      have helse := h.keeps_execute names elseBranch (hallow.mono (by simp [Stmt.parts])) hsubElse
      rw [execute]
      refine h.keeps_bind (h.keeps_evaluate condition hcondition) fun _ => ?_
      refine h.keeps_bind (h.keeps_visit _) fun _ => ?_
      refine h.keeps_bind (h.keeps_onBranch hthen) fun _ => ?_
      refine h.keeps_bind (h.keeps_onBranch helse) fun _ => ?_
      exact h.keeps_forget (List.append_subset.mpr ⟨hsubThen, hsubElse⟩)
  | names, .loop condition body location, hallow, hsub => by
      have hforget := h.keeps_forget hsub
      simp only [Stmt.assigned, List.append_subset] at hsub
      have hbody := h.keeps_execute names body (hallow.mono (by simp [Stmt.parts])) hsub.2
      rw [execute]
      refine h.keeps_bind hforget fun _ => ?_
      refine h.keeps_bind (h.keeps_evaluate condition hsub.1) fun _ => ?_
      refine h.keeps_bind (h.keeps_visit _) fun _ => ?_
      exact h.keeps_bind hbody fun _ => hforget
  | names, .block ⟨statements, location⟩, hallow, hsub => by
      rw [execute]
      refine h.keeps_bind (h.keeps_visit _) fun _ => ?_
      exact h.keeps_executeAll names statements (hallow.mono (by simp [Stmt.parts])) hsub
  | names, .html location, _, _ => by
      rw [execute]
      exact h.keeps_visit _
  | names, .functionDecl signature ⟨statements, bodyLocation⟩ location, hallow, _ => by
      rw [execute]
      refine h.keeps_bind (h.keeps_visit _) fun _ => ?_
      refine h.keeps_bind (h.keeps_parameterScope _ _ fun e he => ?_) fun _ => ?_
      · refine hallow.default (.functionDecl signature ⟨statements, bodyLocation⟩ location)
          (by simp [Stmt.parts]) ?_ names
        simpa [Stmt.defaults, Stmt.callables, Callable.defaults] using he
      · exact h.keeps_inScope (h.keeps_executeAll _ statements (hallow.mono (by simp [Stmt.parts]))
          (List.Subset.refl _))
  | names, .classDecl header methods location, hallow, _ => by
      rw [execute]
      refine h.keeps_bind (h.keeps_visit _) fun _ => ?_
      refine h.keeps_executeMethods names header.name.name methods
        (hallow.mono (by simp [Stmt.parts])) ?_
      intro c hc e he
      exact hallow.default (.classDecl header methods location) (by simp [Stmt.parts])
        (List.mem_flatMap.mpr ⟨c, hc, he⟩)
  | names, .constDecl name e location, hallow, hsub => by
      rw [execute]
      refine h.keeps_bind (h.keeps_evaluate e hsub) fun value => ?_
      refine h.keeps_bind (h.keeps_visit _) fun _ => ?_
      split
      · exact fun s => hallow.declare (List.mem_singleton_self _) names s value
      · exact h.keeps_pure _
  | names, .invalid location, _, _ => by
      rw [execute]
      exact h.keeps_fatal _ _

theorem keeps_executeAll (h : Effect d R) :
    ∀ (names : List String) (ss : List Stmt), Effect.Allows d R (blockParts ss) →
      blockAssigned ss ⊆ names →
      Keeps (R names) (executeAll d ss)
  | names, [], _, _ => by
      rw [executeAll]
      exact h.keeps_pure _
  | names, s :: ss, hallow, hsub => by
      simp only [blockAssigned, List.append_subset] at hsub
      have hs := h.keeps_execute names s (hallow.mono (by simp [blockParts])) hsub.1
      have hss := h.keeps_executeAll names ss (hallow.mono (by simp [blockParts])) hsub.2
      rw [executeAll]
      exact h.keeps_bind hs fun _ => hss

theorem keeps_executeMethods (h : Effect d R) :
    ∀ (names : List String) (owner : String) (methods : List Method),
      Effect.Allows d R (methodParts methods) →
      (∀ c ∈ methods.filterMap (Method.callable? owner), ∀ e ∈ c.defaults, ∀ names,
        Keeps (R names) (evaluate d e)) →
      Keeps (R names) (executeMethods d owner methods)
  | names, owner, [], _, _ => by
      rw [executeMethods]
      exact h.keeps_pure _
  | names, owner, ⟨signature, modifiers, none, location⟩ :: methods, hallow, hdefault => by
      rw [executeMethods]
      refine h.keeps_bind (h.keeps_visit _) fun _ => ?_
      exact h.keeps_executeMethods names owner methods hallow hdefault
  | names, owner, ⟨signature, modifiers, some ⟨statements, bodyLocation⟩, location⟩ :: methods,
      hallow, hdefault => by
      simp only [List.filterMap_cons, Method.callable?, List.mem_cons, forall_eq_or_imp] at hdefault
      have hbody := h.keeps_executeAll _ statements (hallow.mono (by simp [methodParts]))
        (List.Subset.refl _)
      have hmethods := h.keeps_executeMethods names owner methods
        (hallow.mono (by simp [methodParts])) hdefault.2
      rw [executeMethods]
      refine h.keeps_bind (h.keeps_visit _) fun _ => ?_
      refine h.keeps_bind (h.keeps_parameterScope _ _ fun e he => hdefault.1 e he names) fun _ => ?_
      exact h.keeps_bind (h.keeps_inScope hbody) fun _ => hmethods
end

end Effect

end PhpLint
