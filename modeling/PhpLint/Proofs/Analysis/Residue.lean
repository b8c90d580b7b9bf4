import PhpLint.Proofs.Analysis.Fatality
import PhpLint.Proofs.Analysis.Frame

namespace PhpLint

open EStateM (after after_of_ok Keeps)

-- What a step may leave behind where it ends: variables that are bound to something that may
-- be known, and constants that may be declared.
structure Residue where
  assigned : List String := []
  declared : List String := []
  deriving DecidableEq

namespace Residue

-- What comes next is not reached if the first part ends fatally.
def andThen (first : Residue) : Option Fatal → Residue → Residue
  | none, next => ⟨first.assigned ++ next.assigned, first.declared ++ next.declared⟩
  | some _, _ => first

theorem andThen_empty (r : Residue) : r.andThen none {} = r := by
  simp [andThen]

-- Names are forgotten at the end only.
def forget (r : Residue) : Option Fatal → List String → Residue
  | none, names => { r with assigned := r.assigned.filter (· ∉ names) }
  | some _, _ => r

-- The scope from before a branch is back, but not if the branch ends fatally. Constants
-- belong to no scope.
def onBranch (r : Residue) : Option Fatal → Residue
  | none => { r with assigned := [] }
  | some _ => r

-- The scope from before a body is back in any case.
def inBody (r : Residue) : Residue :=
  { r with assigned := [] }

end Residue

-- A variable that is written as a whole gets the value. An element that is written makes the
-- variable unknown.
def Expr.written : Expr → Residue
  | .var name _ => if name = "this" then {} else { assigned := [name] }
  | _ => {}

-- What an expression leaves behind.
mutual
def Expr.residue : Expr → Residue
  | .assign _ target value _ =>
    if target.isAssignable then
      target.placeResidue.andThen target.placeFault?
        (value.residue.andThen value.fault? target.written)
    else {}
  | .binary _ left right _ _ => left.residue.andThen left.fault? right.residue
  | .unary _ operand _ _ => operand.residue
  | .cast _ operand _ => operand.residue
  | .array items _ _ => itemsResidue items
  | .call _ arguments _ => listResidue arguments
  | .staticCall _ _ arguments _ => listResidue arguments
  | .new _ arguments _ => listResidue arguments
  | .methodCall object _ arguments _ => object.residue.andThen object.fault? (listResidue arguments)
  | .property object _ _ => object.residue
  | .element container index _ => container.residue.andThen container.fault? index.residue
  | .literal .. | .var .. | .constant .. | .slot .. | .interpolated .. | .invalid .. => {}

-- The same for what is read to find the target of an assignment.
def Expr.placeResidue : Expr → Residue
  | .property object _ _ => object.residue
  | .element container index _ =>
    container.placeResidue.andThen container.placeFault? index.residue
  | .slot container _ => container.placeResidue
  | _ => {}

def listResidue : List Expr → Residue
  | [] => {}
  | e :: es => e.residue.andThen e.fault? (listResidue es)

def itemsResidue : List ArrayItem → Residue
  | [] => {}
  | .plain value :: items => value.residue.andThen value.fault? (itemsResidue items)
  | .keyed key value :: items =>
    key.residue.andThen key.fault? (value.residue.andThen value.fault? (itemsResidue items))
end

def defaultsResidue : List Parameter → Residue
  | [] => {}
  | ⟨_, none, _⟩ :: rest => defaultsResidue rest
  | ⟨_, some e, _⟩ :: rest => e.residue.andThen e.fault? (defaultsResidue rest)

-- What a statement leaves behind.
mutual
def Stmt.residue : Stmt → Residue
  | .expr e _ => e.residue
  | .echo es _ => listResidue es
  | .ret none _ => {}
  | .ret (some e) _ => e.residue
  | .ifThen condition thenBranch _ =>
    (condition.residue.andThen condition.fault?
      (thenBranch.residue.onBranch thenBranch.fault?)).forget
      (condition.fault?.or thenBranch.fault?) thenBranch.assigned
  | .ifElse condition thenBranch elseBranch _ =>
    (condition.residue.andThen condition.fault?
      ((thenBranch.residue.onBranch thenBranch.fault?).andThen thenBranch.fault?
        (elseBranch.residue.onBranch elseBranch.fault?))).forget
      (condition.fault?.or (thenBranch.fault?.or elseBranch.fault?))
      (thenBranch.assigned ++ elseBranch.assigned)
  | .loop condition body _ =>
    (condition.residue.andThen condition.fault? body.residue).forget
      (condition.fault?.or body.fault?) (condition.assigned ++ body.assigned)
  | .block ⟨statements, _⟩ => blockResidue statements
  | .functionDecl signature ⟨statements, _⟩ _ =>
    (defaultsResidue signature.parameters).andThen (defaultsFault? signature.parameters)
      (blockResidue statements).inBody
  | .classDecl _ methods _ => methodsResidue methods
  | .constDecl name e _ => e.residue.andThen e.fault? { declared := [name.name] }
  | .html _ | .invalid _ => {}

def blockResidue : List Stmt → Residue
  | [] => {}
  | s :: ss => s.residue.andThen s.fault? (blockResidue ss)

def methodsResidue : List Method → Residue
  | [] => {}
  | ⟨_, _, none, _⟩ :: methods => methodsResidue methods
  | ⟨signature, _, some ⟨statements, _⟩, _⟩ :: methods =>
    (defaultsResidue signature.parameters).andThen (defaultsFault? signature.parameters)
      ((blockResidue statements).inBody.andThen (blockFault? statements) (methodsResidue methods))
end

-- The variable is bound as before or to nothing that is known.
def Unlearned (s t : State) (name : String) : Prop :=
  t.scope.get? name = s.scope.get? name ∨ t.valueOf name = .unknown

theorem Unlearned.trans {s t u : State} {name : String} (hst : Unlearned s t name)
    (htu : Unlearned t u name) : Unlearned s u name := by
  rcases htu with hsame | hunknown
  · rcases hst with hbefore | hunknown
    · exact .inl (hsame.trans hbefore)
    · refine .inr ?_
      rwa [State.valueOf, hsame]
  · exact .inr hunknown

-- All the changes between two states are in the residue, and its variables are bound.
structure Residue.Covers (r : Residue) (s t : State) : Prop where
  unlearned {name} : name ∉ r.assigned → Unlearned s t name
  undeclared {name} : name ∉ r.declared → t.constants.get? name = s.constants.get? name
  stillBound {name} : (s.scope.get? name).isSome → (t.scope.get? name).isSome
  bound {name} : name ∈ r.assigned → (t.scope.get? name).isSome

namespace Residue.Covers

variable {r q : Residue} {s t u : State}

theorem of_eq (hscope : t.scope = s.scope) (hconstants : t.constants = s.constants) :
    Covers {} s t where
  unlearned _ := .inl (by rw [hscope])
  undeclared _ := by rw [hconstants]
  stillBound h := by rwa [hscope]
  bound h := by simp at h

theorem trans (hr : r.Covers s t) (hq : q.Covers t u) : (r.andThen none q).Covers s u where
  unlearned hname := by
    simp only [andThen, List.mem_append, not_or] at hname
    exact (hr.unlearned hname.1).trans (hq.unlearned hname.2)
  undeclared hname := by
    simp only [andThen, List.mem_append, not_or] at hname
    rw [hq.undeclared hname.2, hr.undeclared hname.1]
  stillBound h := hq.stillBound (hr.stillBound h)
  bound hname := by
    rcases List.mem_append.mp hname with hname | hname
    · exact hq.stillBound (hr.bound hname)
    · exact hq.bound hname

-- The scope from before is back.
theorem restore {scope : Scope} (h : r.Covers { s with scope } t) :
    r.inBody.Covers s { t with scope := s.scope } where
  unlearned _ := .inl rfl
  undeclared := h.undeclared
  stillBound h := h
  bound h := by simp [inBody] at h

end Residue.Covers

namespace Eval

variable {α β : Type} {d : Dispatcher} {r q : Residue} {f : Option Fatal}

-- Whatever the state is, the step leaves at most the residue behind.
def Leaves (x : Eval α) (r : Residue) : Prop :=
  Keeps r.Covers x

theorem leaves_pure (a : α) : Leaves (pure a) {} :=
  fun _ => .of_eq rfl rfl

theorem leaves_fatal (cause : FatalCause) (location : Location) :
    Leaves (fatal cause location : Eval α) {} :=
  fun _ => .of_eq rfl rfl

theorem leaves_get : Leaves (get : Eval State) {} :=
  fun _ => .of_eq rfl rfl

theorem leaves_visit (node : Node) : Leaves (visit d node) {} :=
  fun _ => .of_eq rfl rfl

theorem leaves_forget (names : List String) : Leaves (forget names) {} := by
  intro s
  have hget := Scope.get?_forget s.scope names
  refine ⟨fun {name} _ => ?_, fun _ => rfl, fun {name} hname => ?_, fun hname => by simp at hname⟩
  · change (s.scope.forget names).get? name = s.scope.get? name ∨
      ((s.scope.forget names).get? name).getD .unknown = .unknown
    rw [hget]
    split
    · cases s.scope.get? name <;> simp
    · exact .inl rfl
  · change ((s.scope.forget names).get? name).isSome
    rw [hget]
    split <;> simpa using hname

theorem leaves_bindVariable (name : String) (value : Value) :
    Leaves (bindVariable name value) { assigned := [name] } := by
  intro s
  have hget (other : String) := Entries.get?_put s.scope name other value
  refine ⟨fun {other} hother => .inl ?_, fun _ => rfl, fun {other} hother => ?_,
    fun {other} hother => ?_⟩
  · change (s.scope.put name value).get? other = s.scope.get? other
    rw [hget, if_neg (by simpa using hother)]
  · change ((s.scope.put name value).get? other).isSome
    rw [hget]
    split
    · rfl
    · exact hother
  · change ((s.scope.put name value).get? other).isSome
    rw [hget, if_pos (by simpa using hother)]
    rfl

-- A step that binds nothing that is known leaves nothing.
theorem leaves_bindUnknown (name : String) : Leaves (bindVariable name .unknown) {} := by
  intro s
  have hs := leaves_bindVariable name .unknown s
  refine ⟨fun {other} _ => ?_, hs.undeclared, hs.stillBound, fun hother => by simp at hother⟩
  by_cases hother : other = name
  · right
    change ((s.scope.put name .unknown).get? other).getD .unknown = .unknown
    rw [Entries.get?_put, hother, if_pos rfl]
    rfl
  · exact hs.unlearned (by simpa using hother)

theorem Leaves.bind {x : Eval α} {next : α → Eval β} (hx : Leaves x r) (hends : Ends x f)
    (hnext : ∀ a, Leaves (next a) q) : Leaves (x >>= next) (r.andThen f q) := by
  intro s
  have hs := hx s
  have hf := hends s
  simp only [after, fault?, Bind.bind, EStateM.bind] at hs hf ⊢
  cases he : x s with
  | ok a t =>
      rw [he] at hs hf
      rw [← hf]
      exact hs.trans (hnext a t)
  | error e t =>
      rw [he] at hs hf
      rw [← hf]
      exact hs

-- The two usual cases: only the first step or only what follows leaves anything.
theorem Leaves.andThen {x : Eval α} {next : α → Eval β} (hx : Leaves x r)
    (hnext : ∀ a, Leaves (next a) {}) : Leaves (x >>= next) r := by
  intro s
  have hs := hx s
  simp only [after, Bind.bind, EStateM.bind] at hs ⊢
  cases he : x s with
  | ok a t =>
      rw [he] at hs
      rw [← r.andThen_empty]
      exact hs.trans (hnext a t)
  | error e t =>
      rw [he] at hs
      exact hs

theorem Leaves.before {x : Eval α} {next : α → Eval β} (hx : Leaves x {}) (hends : Ends x none)
    (hnext : ∀ a, Leaves (next a) r) : Leaves (x >>= next) r :=
  hx.bind hends hnext

theorem Leaves.visited {next : Unit → Eval β} (node : Node) (hnext : ∀ a, Leaves (next a) r) :
    Leaves (visit d node >>= next) r :=
  (leaves_visit node).before (ends_modify _) hnext

theorem leaves_visit_pure (node : Node) (a : α) :
    Leaves (visit d node >>= fun _ => pure a) {} :=
  (leaves_visit node).andThen fun _ => leaves_pure a

theorem leaves_operate (op : BinaryOp) (left right : Value) (location : Location) :
    Leaves (operate op left right location) {} := by
  intro s
  rw [after_of_ok (operate_apply op left right location s)]
  cases (Value.binary op left right).hazard <;> exact .of_eq rfl rfl

theorem leaves_current (target : Expr) : Leaves (current target) {} := by
  unfold current
  split
  · exact leaves_get.andThen fun _ => leaves_pure _
  · exact leaves_pure _

theorem leaves_store (target : Expr) (value : Value) :
    Leaves (store target value) target.written := by
  cases target with
  | var name location =>
      simp only [store, Expr.written]
      split
      · exact leaves_fatal _ _
      · exact leaves_bindVariable name value
  | element container _ _ | slot container _ =>
      simp only [store, Expr.written]
      split
      · exact leaves_bindUnknown _
      · exact leaves_pure _
  | _ => exact leaves_pure _

-- Only a value that is known is declared.
theorem leaves_declare (name : String) (value : Value) :
    Leaves (if value.isKnown then modify fun s => { s with constants := s.constants.put name value }
      else pure () : Eval Unit) { declared := [name] } := by
  intro s
  split
  · refine ⟨fun _ => .inl rfl, fun {other} hother => ?_, id, fun hother => by simp at hother⟩
    change (s.constants.put name value).get? other = s.constants.get? other
    rw [Entries.get?_put, if_neg (by simpa using hother)]
  · exact ⟨fun _ => .inl rfl, fun _ => rfl, id, fun hother => by simp at hother⟩

theorem Leaves.onBranch {x : Eval Unit} (hx : Leaves x r) (hends : Ends x f) :
    Leaves (onBranch x) (r.onBranch f) := by
  intro s
  have hs := hx s
  have hf := hends s
  simp only [after, fault?, onBranch_apply] at hs hf ⊢
  cases he : x s with
  | ok a t =>
      rw [he] at hs hf
      rw [← hf]
      exact hs.restore
  | error e t =>
      rw [he] at hs hf
      rw [← hf]
      exact hs

theorem Leaves.inScope {x : Eval α} (hx : Leaves x r) (scope : Scope) :
    Leaves (inScope scope x) r.inBody := by
  intro s
  have hs := hx { s with scope }
  simp only [after, Eval.inScope] at hs ⊢
  cases he : x { s with scope } with
  | ok a t | error e t =>
      rw [he] at hs
      exact hs.restore

-- The names are unknown once the step has ended well.
def Clears (x : Eval α) (names : List String) : Prop :=
  ∀ s a t, x s = .ok a t → ∀ name ∈ names, t.valueOf name = .unknown

theorem clears_forget (names : List String) : Clears (forget names) names := by
  rintro s _ t ⟨⟩ name hname
  change ((s.scope.forget names).get? name).getD .unknown = .unknown
  rw [Scope.get?_forget, if_pos hname]
  cases s.scope.get? name <;> rfl

theorem Clears.bind {x : Eval α} {next : α → Eval β} {names : List String}
    (hnext : ∀ a, Clears (next a) names) : Clears (x >>= next) names := by
  intro s b u hrun
  obtain ⟨a, t, -, hrun⟩ := EStateM.bind_eq_ok_iff.mp hrun
  exact hnext a t b u hrun

theorem Leaves.forget {x : Eval α} {names : List String} (hx : Leaves x r) (hends : Ends x f)
    (hclears : Clears x names) : Leaves x (r.forget f names) := by
  intro s
  have hs := hx s
  have hf := hends s
  simp only [after, fault?] at hs hf ⊢
  cases he : x s with
  | error e t =>
      rw [he] at hs hf
      rw [← hf]
      exact hs
  | ok a t =>
      rw [he] at hs hf
      rw [← hf]
      refine ⟨fun {name} hname => ?_, hs.undeclared, hs.stillBound, fun hname => ?_⟩
      · by_cases hforgotten : name ∈ names
        · exact .inr (hclears s a t he name hforgotten)
        · exact hs.unlearned fun hmem => hname (by simp [Residue.forget, hmem, hforgotten])
      · exact hs.bound (List.mem_filter.mp hname).1

mutual
theorem leaves_evaluate : ∀ e : Expr, Leaves (evaluate d e) e.residue
  | .literal .. | .interpolated .. => by
      rw [evaluate, Expr.residue]
      exact leaves_visit_pure _ _
  | .var .. | .constant .. => by
      rw [evaluate, Expr.residue]
      exact .visited _ fun _ => leaves_get.andThen fun _ => leaves_pure _
  | .assign op target value location => by
      rw [evaluate, Expr.residue]
      split
      · refine (leaves_evaluateTarget target).bind (ends_evaluateTarget target) fun _ => ?_
        refine (leaves_evaluate value).bind (ends_evaluate value) fun v => .visited _ fun _ => ?_
        cases op with
        | none =>
            refine (leaves_pure _).before (ends_pure _) fun _ => ?_
            exact (leaves_store target _).andThen fun _ => leaves_pure _
        | some op =>
            refine (leaves_current target).before (ends_current target) fun _ => ?_
            refine (leaves_operate _ _ _ _).before (ends_operate _ _ _ _) fun _ => ?_
            exact (leaves_store target _).andThen fun _ => leaves_pure _
      · exact leaves_fatal _ _
  | .binary op left right location opLocation => by
      rw [evaluate, Expr.residue]
      refine (leaves_evaluate left).bind (ends_evaluate left) fun _ => ?_
      refine (leaves_evaluate right).andThen fun _ => .visited _ fun _ => ?_
      exact leaves_operate _ _ _ _
  | .unary _ operand _ _ | .cast _ operand _ | .property operand _ _ => by
      rw [evaluate, Expr.residue]
      exact (leaves_evaluate operand).andThen fun _ => leaves_visit_pure _ _
  | .array items _ _ => by
      rw [evaluate, Expr.residue]
      exact (leaves_evaluateItems items).andThen fun _ => leaves_visit_pure _ _
  | .call _ arguments _ | .staticCall _ _ arguments _ | .new _ arguments _ => by
      rw [evaluate, Expr.residue]
      exact (leaves_evaluateAll arguments).andThen fun _ => leaves_visit_pure _ _
  | .methodCall object _ arguments _ => by
      rw [evaluate, Expr.residue]
      refine (leaves_evaluate object).bind (ends_evaluate object) fun _ => ?_
      exact (leaves_evaluateAll arguments).andThen fun _ => leaves_visit_pure _ _
  | .element container index _ => by
      rw [evaluate, Expr.residue]
      refine (leaves_evaluate container).bind (ends_evaluate container) fun _ => ?_
      exact (leaves_evaluate index).andThen fun _ => leaves_visit_pure _ _
  | .slot .. | .invalid .. => by
      rw [evaluate, Expr.residue]
      exact leaves_fatal _ _

theorem leaves_evaluateTarget : ∀ target : Expr,
    Leaves (evaluateTarget d target) target.placeResidue
  | .property object _ _ => by
      rw [evaluateTarget, Expr.placeResidue]
      exact (leaves_evaluate object).andThen fun _ => leaves_pure _
  | .element container index _ => by
      rw [evaluateTarget, Expr.placeResidue]
      refine (leaves_evaluateTarget container).bind (ends_evaluateTarget container) fun _ => ?_
      exact (leaves_evaluate index).andThen fun _ => leaves_pure _
  | .slot container _ => by
      rw [evaluateTarget, Expr.placeResidue]
      exact leaves_evaluateTarget container
  | .literal .. | .var .. | .constant .. | .assign .. | .binary .. | .unary .. | .cast ..
  | .array .. | .call .. | .methodCall .. | .staticCall .. | .new .. | .interpolated ..
  | .invalid .. => by
      rw [evaluateTarget, Expr.placeResidue]
      · exact leaves_pure _
      all_goals simp

theorem leaves_evaluateAll : ∀ es : List Expr, Leaves (evaluateAll d es) (listResidue es)
  | [] => by
      rw [evaluateAll, listResidue]
      exact leaves_pure _
  | e :: es => by
      rw [evaluateAll, listResidue]
      refine (leaves_evaluate e).bind (ends_evaluate e) fun _ => ?_
      exact (leaves_evaluateAll es).andThen fun _ => leaves_pure _

theorem leaves_evaluateItems : ∀ items : List ArrayItem,
    Leaves (evaluateItems d items) (itemsResidue items)
  | [] => by
      rw [evaluateItems, itemsResidue]
      exact leaves_pure _
  | .plain value :: items => by
      rw [evaluateItems, itemsResidue]
      refine (leaves_evaluate value).bind (ends_evaluate value) fun _ => ?_
      exact (leaves_evaluateItems items).andThen fun _ => leaves_pure _
  | .keyed key value :: items => by
      rw [evaluateItems, itemsResidue]
      refine (leaves_evaluate key).bind (ends_evaluate key) fun _ => ?_
      refine (leaves_evaluate value).bind (ends_evaluate value) fun _ => ?_
      exact (leaves_evaluateItems items).andThen fun _ => leaves_pure _
end

theorem leaves_parameterScope : ∀ (scope : Scope) (parameters : List Parameter),
    Leaves (parameterScope d scope parameters) (defaultsResidue parameters)
  | _, [] => by
      rw [parameterScope, defaultsResidue]
      exact leaves_pure _
  | scope, ⟨name, none, location⟩ :: rest => by
      rw [parameterScope, defaultsResidue]
      exact leaves_parameterScope _ rest
  | scope, ⟨name, some e, location⟩ :: rest => by
      rw [parameterScope, defaultsResidue]
      exact (leaves_evaluate e).bind (ends_evaluate e) fun _ => leaves_parameterScope _ rest

mutual
theorem leaves_execute : ∀ s : Stmt, Leaves (execute d s) s.residue
  | .expr e _ => by
      rw [execute, Stmt.residue]
      exact (leaves_evaluate e).andThen fun _ => leaves_visit _
  | .echo es _ => by
      rw [execute, Stmt.residue]
      exact (leaves_evaluateAll es).andThen fun _ => leaves_visit _
  | .ret none _ => by
      rw [execute, Stmt.residue]
      exact leaves_visit _
  | .ret (some e) _ => by
      rw [execute, Stmt.residue]
      exact (leaves_evaluate e).andThen fun _ => leaves_visit _
  | .ifThen condition thenBranch location => by
      have hends := ends_execute (d := d) (.ifThen condition thenBranch location)
      rw [Stmt.fault?] at hends
      rw [Stmt.residue]
      refine Leaves.forget ?_ hends ?_
      · rw [execute]
        refine (leaves_evaluate condition).bind (ends_evaluate condition) fun _ => ?_
        refine .visited _ fun _ => ?_
        refine ((leaves_execute thenBranch).onBranch (ends_execute thenBranch)).andThen fun _ => ?_
        exact leaves_forget _
      · rw [execute]
        exact .bind fun _ => .bind fun _ => .bind fun _ => clears_forget _
  | .ifElse condition thenBranch elseBranch location => by
      have hends := ends_execute (d := d) (.ifElse condition thenBranch elseBranch location)
      rw [Stmt.fault?] at hends
      rw [Stmt.residue]
      refine Leaves.forget ?_ hends ?_
      · rw [execute]
        refine (leaves_evaluate condition).bind (ends_evaluate condition) fun _ => ?_
        refine .visited _ fun _ => ?_
        refine ((leaves_execute thenBranch).onBranch (ends_execute thenBranch)).bind
          (ends_execute thenBranch).onBranch fun _ => ?_
        refine ((leaves_execute elseBranch).onBranch (ends_execute elseBranch)).andThen fun _ => ?_
        exact leaves_forget _
      · rw [execute]
        exact .bind fun _ => .bind fun _ => .bind fun _ => .bind fun _ => clears_forget _
  | .loop condition body location => by
      have hends := ends_execute (d := d) (.loop condition body location)
      rw [Stmt.fault?] at hends
      rw [Stmt.residue]
      refine Leaves.forget ?_ hends ?_
      · rw [execute]
        refine (leaves_forget _).before (ends_modify _) fun _ => ?_
        refine (leaves_evaluate condition).bind (ends_evaluate condition) fun _ => ?_
        refine .visited _ fun _ => ?_
        exact (leaves_execute body).andThen fun _ => leaves_forget _
      · rw [execute]
        exact .bind fun _ => .bind fun _ => .bind fun _ => .bind fun _ => clears_forget _
  | .block ⟨statements, _⟩ => by
      rw [execute, Stmt.residue]
      exact .visited _ fun _ => leaves_executeAll statements
  | .html _ => by
      rw [execute, Stmt.residue]
      exact leaves_visit _
  | .functionDecl signature ⟨statements, _⟩ _ => by
      rw [execute, Stmt.residue]
      refine .visited _ fun _ => ?_
      refine (leaves_parameterScope _ _).bind (ends_parameterScope _ _) fun scope => ?_
      exact (leaves_executeAll statements).inScope scope
  | .classDecl _ methods _ => by
      rw [execute, Stmt.residue]
      exact .visited _ fun _ => leaves_executeMethods _ methods
  | .constDecl name e _ => by
      rw [execute, Stmt.residue]
      refine (leaves_evaluate e).bind (ends_evaluate e) fun value => .visited _ fun _ => ?_
      exact leaves_declare name.name value
  | .invalid _ => by
      rw [execute, Stmt.residue]
      exact leaves_fatal _ _

theorem leaves_executeAll : ∀ ss : List Stmt, Leaves (executeAll d ss) (blockResidue ss)
  | [] => by
      rw [executeAll, blockResidue]
      exact leaves_pure _
  | s :: ss => by
      rw [executeAll, blockResidue]
      exact (leaves_execute s).bind (ends_execute s) fun _ => leaves_executeAll ss

theorem leaves_executeMethods (className : String) : ∀ methods : List Method,
    Leaves (executeMethods d className methods) (methodsResidue methods)
  | [] => by
      rw [executeMethods, methodsResidue]
      exact leaves_pure _
  | ⟨_, _, none, _⟩ :: methods => by
      rw [executeMethods, methodsResidue]
      exact .visited _ fun _ => leaves_executeMethods className methods
  | ⟨signature, modifiers, some ⟨statements, _⟩, _⟩ :: methods => by
      rw [executeMethods, methodsResidue]
      refine .visited _ fun _ => ?_
      refine (leaves_parameterScope _ _).bind (ends_parameterScope _ _) fun scope => ?_
      refine ((leaves_executeAll statements).inScope _).bind
        ((ends_executeAll statements).inScope _) fun _ => ?_
      exact leaves_executeMethods className methods
end

end Eval

-- Nothing that the statement has bound or declared on its way is known afterwards.
structure Undone (s u : State) : Prop where
  unlearned name : Unlearned s u name
  undeclared name : u.constants.get? name = s.constants.get? name

theorem covers_runStatement (d : Dispatcher) (s : State) (statement : Stmt) :
    statement.residue.Covers s (runStatement d s statement) := by
  have hs := Eval.leaves_execute (d := d) statement s
  simp only [after, runStatement] at hs ⊢
  cases he : execute d statement s with
  | ok _ t =>
      rw [he] at hs
      exact hs
  | error fatal t =>
      rw [he] at hs
      exact ⟨hs.unlearned, hs.undeclared, hs.stillBound, hs.bound⟩

-- The end of a fatal statement takes back no bindings by itself. So the statement is undone
-- exactly if its residue is: what it has bound or declared up to its fatal end, apart from
-- variables of a body and of a branch or loop that is over, and from elements. In particular
-- it is if there is no such thing.
theorem fatal_statement_undone_iff {d : Dispatcher} {s t : State} {statement : Stmt} {fatal : Fatal}
    (h : execute d statement s = .error fatal t) :
    let u := runStatement d s statement
    (u.scope = t.scope ∧ u.constants = t.constants) ∧
    (Undone s u ↔ (∀ name ∈ statement.residue.assigned, Unlearned s u name) ∧
      ∀ name ∈ statement.residue.declared, u.constants.get? name = s.constants.get? name) ∧
    ∀ name ∈ statement.residue.assigned, (u.scope.get? name).isSome := by
  intro u
  have hcovers : statement.residue.Covers s u := covers_runStatement d s statement
  have hu : u = { t with issues := (t.issues.rollback s.issues.length).report fatal.issue } := by
    simp only [u, runStatement, h]
  refine ⟨by rw [hu]; exact ⟨rfl, rfl⟩, ⟨fun hundone => ?_, fun hresidue => ?_⟩, ?_⟩
  · exact ⟨fun name _ => hundone.unlearned name, fun name _ => hundone.undeclared name⟩
  · constructor
    · intro name
      by_cases hname : name ∈ statement.residue.assigned
      · exact hresidue.1 name hname
      · exact hcovers.unlearned hname
    · intro name
      by_cases hname : name ∈ statement.residue.declared
      · exact hresidue.2 name hname
      · exact hcovers.undeclared hname
  · exact fun name hname => hcovers.bound hname

-- A loop that is over has made its variables unknown.
theorem fatal_statement_undone_afterLoop :
    let here : Location := ⟨"", 0, 1, 1, 1⟩
    let assign (name : String) : Stmt :=
      .expr (.assign none (.var name here) (.literal (.int 1) here) here) here
    let statement : Stmt := .block ⟨[.loop (.var "c" here) (assign "a") here, assign "this"], here⟩
    let s : State := { scope := [("a", .int 5)] }
    ∃ fatal t, execute {} statement s = .error fatal t ∧
      (runStatement {} s statement).valueOf "a" = .unknown ∧
      Undone s (runStatement {} s statement) := by
  intro here assign statement s
  have hresidue : statement.residue = {} := by decide
  refine ⟨_, _, rfl, rfl, (fatal_statement_undone_iff rfl).2.1.mpr ?_⟩
  simp [hresidue]

-- What is bound in a branch, or declared in a block, stays if the statement ends fatally
-- right after it. Later statements take it as known, even if the branch is never executed.
theorem fatal_statement_leaks :
    let here : Location := ⟨"", 0, 1, 1, 1⟩
    let one : Expr := .literal (.int 1) here
    let assign (name : String) : Stmt := .expr (.assign none (.var name here) one here) here
    let branch : Stmt := .ifThen (.var "c" here) (.block ⟨[assign "a", assign "this"], here⟩) here
    let declaration : Stmt := .block ⟨[.constDecl ⟨"A", here⟩ one here, assign "this"], here⟩
    (runStatement {} {} branch).valueOf "a" = .int 1 ∧
      (runStatement {} {} declaration).constant "A" = .int 1 ∧
      ∀ statement ∈ [branch, declaration], ∃ fatal t, execute {} statement {} = .error fatal t ∧
        ¬ Undone {} (runStatement {} {} statement) := by
  intro here one assign branch declaration
  refine ⟨rfl, rfl, fun statement hstatement => ?_⟩
  simp only [List.mem_cons, List.not_mem_nil, or_false] at hstatement
  rcases hstatement with rfl | rfl
  · refine ⟨_, _, rfl, fun h => ?_⟩
    rcases h.unlearned "a" with hsame | hunknown
    · cases hsame
    · cases hunknown
  · refine ⟨_, _, rfl, fun h => ?_⟩
    cases h.undeclared "A"

end PhpLint
