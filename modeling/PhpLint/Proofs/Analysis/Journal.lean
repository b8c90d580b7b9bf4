import PhpLint.Proofs.Analysis.Effect
import PhpLint.Proofs.Analysis.Visits
import PhpLint.Proofs.Syntax.Regions

namespace PhpLint

def Node.expr? : Node → Option Expr
  | expr e _ => some e
  | stmt .. | method _ => none

def Node.region : Node → Region
  | expr e _ => .expr e
  | stmt s _ => .stmt s
  | method m => .method m

-- What the analysis does to the issues and to the passes, as opposed to variables and
-- constants.
inductive Act where
  | visit (node : Node)
  | report (issue : Issue)

namespace Act

def node? : Act → Option Node
  | visit node => some node
  | report _ => none

-- A statement that does not end fatally reports hazards only, and leaves the rest to the
-- passes.
def IsOrdinary : Act → Prop
  | visit _ => True
  | report issue => ∃ (hazard : Hazard) (location : Location), issue = hazard.issue location

-- The nodes that are handed over are of this kind, and so are the expressions at which
-- hazards are.
def IsWithin (inside : Region → Prop) : Act → Prop
  | visit node => inside node.region
  | report issue =>
    ∃ (hazard : Hazard) (e : Expr), inside (.expr e) ∧ issue = hazard.issue e.location

theorem IsWithin.isOrdinary {inside : Region → Prop} {act : Act} (h : act.IsWithin inside) :
    act.IsOrdinary := by
  cases act with
  | visit => trivial
  | report issue =>
      obtain ⟨hazard, e, -, rfl⟩ := h
      exact ⟨hazard, e.location, rfl⟩

end Act

-- The expressions that are handed to the passes, in that order.
def handed (acts : List Act) : List Expr :=
  acts.filterMap fun act => act.node?.bind Node.expr?

theorem handed_append (acts others : List Act) :
    handed (acts ++ others) = handed acts ++ handed others := by
  simp [handed]

namespace State

def perform (d : Dispatcher) (s : State) : Act → State
  | .visit node => s.visit d node
  | .report issue => s.report issue

def performAll (d : Dispatcher) (s : State) (acts : List Act) : State :=
  acts.foldl (perform d) s

theorem performAll_append (d : Dispatcher) (s : State) (acts others : List Act) :
    s.performAll d (acts ++ others) = (s.performAll d acts).performAll d others :=
  List.foldl_append

-- Acts neither read nor change what is bound.
theorem performAll_rebind (d : Dispatcher) (s : State) (scope constants : Scope) (acts : List Act) :
    { s with scope, constants }.performAll d acts =
      { s.performAll d acts with scope, constants } := by
  induction acts generalizing s with
  | nil => rfl
  | cons act acts ih =>
      have hstep : { s with scope, constants }.perform d act =
          { s.perform d act with scope, constants } := by
        cases act <;> rfl
      simp only [performAll, List.foldl_cons, hstep] at ih ⊢
      exact ih (s.perform d act)

theorem events_performAll (d : Dispatcher) (s : State) (acts : List Act) :
    ∃ events, (s.performAll d acts).events = events ++ s.events ∧
      events.reverse.map Event.node = acts.filterMap Act.node? := by
  induction acts generalizing s with
  | nil => exact ⟨[], rfl, rfl⟩
  | cons act acts ih =>
      obtain ⟨events, heq, hnodes⟩ := ih (s.perform d act)
      cases act with
      | visit node =>
          refine ⟨events ++ [⟨node, (d.dispatch node s.issues).runs⟩], ?_, ?_⟩
          · rw [List.append_assoc]
            exact heq
          · simpa [Act.node?] using hnodes
      | report issue => exact ⟨events, heq, hnodes⟩

end State

-- How a step ends from given variables and constants, and what it does on the way.
structure Account (α : Type) where
  outcome : Except Fatal α
  scope : Scope
  constants : Scope
  acts : List Act

def Account.result {α : Type} (account : Account α) (d : Dispatcher) (s : State) :
    EStateM.Result Fatal State α :=
  let t := { s.performAll d account.acts with
    scope := account.scope, constants := account.constants }
  match account.outcome with
  | .ok a => .ok a t
  | .error e => .error e t

-- The account is what the step does from these variables and constants, for every choice of
-- passes and whatever was reported before.
def Account.Tells {α : Type} (account : Account α) (x : Dispatcher → Eval α)
    (scope constants : Scope) : Prop :=
  ∀ (d : Dispatcher) (s : State), s.scope = scope → s.constants = constants →
    x d s = account.result d s

-- What the analysis does about the hazard of an operation, if there is one.
def Hazard.acts (hazard : Option Hazard) (location : Location) : List Act :=
  hazard.toList.map fun hazard => .report (hazard.issue location)

namespace Account.Tells

variable {α β : Type} {x : Dispatcher → Eval α} {next : Dispatcher → α → Eval β}
  {scope scope' scope'' constants constants' constants'' : Scope} {acts more : List Act}

theorem pure (a : α) :
    Tells ⟨.ok a, scope, constants, []⟩ (fun _ => (Pure.pure a : Eval α)) scope constants := by
  rintro d s rfl rfl
  rfl

theorem visit (node : Node) :
    Tells ⟨.ok (), scope, constants, [.visit node]⟩ (Eval.visit · node) scope constants := by
  rintro d s rfl rfl
  rfl

theorem operate (op : BinaryOp) (a b : Value) (location : Location) :
    Tells ⟨.ok (Value.binary op a b).value, scope, constants,
      Hazard.acts (Value.binary op a b).hazard location⟩
      (fun _ => Eval.operate op a b location) scope constants := by
  rintro d s rfl rfl
  refine (Eval.operate_apply op a b location s).trans ?_
  cases (Value.binary op a b).hazard <;> rfl

theorem bind {a : α} {outcome : Except Fatal β}
    (hx : Tells ⟨.ok a, scope', constants', acts⟩ x scope constants)
    (hnext : Tells ⟨outcome, scope'', constants'', more⟩ (next · a) scope' constants') :
    Tells ⟨outcome, scope'', constants'', acts ++ more⟩ (fun d => x d >>= next d)
      scope constants := by
  intro d s hs hc
  refine (EStateM.bind_of_ok (hx d s hs hc)).trans ((hnext d _ rfl rfl).trans ?_)
  simp only [Account.result, State.performAll_append, State.performAll_rebind]

theorem ending_eq {account : Account α} (h : account.Tells x scope constants) {d : Dispatcher}
    {s : State} (hs : s.scope = scope) (hc : s.constants = constants) :
    EStateM.ending (x d) s = account.outcome := by
  rw [EStateM.ending, h d s hs hc, Account.result]
  cases account.outcome <;> rfl

theorem after_eq {account : Account α} (h : account.Tells x scope constants) {d : Dispatcher}
    {s : State} (hs : s.scope = scope) (hc : s.constants = constants) :
    EStateM.after (x d) s = { s.performAll d account.acts with
      scope := account.scope, constants := account.constants } := by
  rw [EStateM.after, h d s hs hc, Account.result]
  cases account.outcome <;> rfl

theorem bind_error {e : Fatal} (hx : Tells ⟨.error e, scope', constants', acts⟩ x scope constants) :
    Tells ⟨.error e, scope', constants', acts⟩ (fun d => x d >>= next d) scope constants := by
  intro d s hs hc
  exact EStateM.bind_of_error (hx d s hs hc)

end Account.Tells

-- Where the reason is that a statement cannot be analysed: at an expression, or at the
-- placeholder of a statement.
def Fatal.IsAt (fatal : Fatal) : Region → Prop
  | .expr e => fatal.location = e.location
  | .stmt s => fatal = ⟨.invalidStatement, s.location⟩
  | _ => False

theorem Fatal.IsAt.location_eq {fatal : Fatal} {r : Region} (h : fatal.IsAt r) :
    fatal.location = r.location := by
  cases r with
  | expr e => exact h
  | stmt s => exact congrArg Fatal.location h
  | _ => exact h.elim

-- The account holds for every choice of passes and whatever was reported before. All of it
-- is about regions of the given kind.
structure Account.Describes {α : Type} (inside : Region → Prop) (account : Account α)
    (x : Dispatcher → Eval α) (scope constants : Scope) (visited : List Expr) : Prop where
  result_eq (d : Dispatcher) {s : State} :
    s.scope = scope → s.constants = constants → x d s = account.result d s
  within : ∀ act ∈ account.acts, act.IsWithin inside
  fatal {e : Fatal} : account.outcome = .error e → ∃ r, inside r ∧ e.IsAt r
  handed_eq {a : α} : account.outcome = .ok a → handed account.acts = visited

theorem Account.Describes.tells {α : Type} {inside : Region → Prop} {account : Account α}
    {x : Dispatcher → Eval α} {scope constants : Scope} {visited : List Expr}
    (h : account.Describes inside x scope constants visited) : account.Tells x scope constants :=
  fun d _ => h.result_eq d

theorem Account.Describes.ordinary {α : Type} {inside : Region → Prop} {account : Account α}
    {x : Dispatcher → Eval α} {scope constants : Scope} {visited : List Expr}
    (h : account.Describes inside x scope constants visited) :
    ∀ act ∈ account.acts, act.IsOrdinary :=
  fun act hact => (h.within act hact).isOrdinary

-- What a step does depends on variables and constants only. If it does not end fatally,
-- the given expressions are handed to the passes.
def Accounted {α : Type} (inside : Region → Prop) (x : Dispatcher → Eval α)
    (visited : List Expr) : Prop :=
  ∀ scope constants, ∃ account : Account α, account.Describes inside x scope constants visited

namespace Accounted

open Eval

variable {α β : Type} {inside : Region → Prop} {visited more : List Expr}

theorem pure (a : α) : Accounted inside (fun _ => Pure.pure a) [] := by
  intro scope constants
  exact ⟨⟨.ok a, scope, constants, []⟩, fun d s => Account.Tells.pure a d s, by simp, nofun,
    fun _ => rfl⟩

theorem fatal {cause : FatalCause} {location : Location} {r : Region} (hr : inside r)
    (hat : Fatal.IsAt ⟨cause, location⟩ r) :
    Accounted inside (fun _ => (Eval.fatal cause location : Eval α)) visited := by
  intro scope constants
  refine ⟨⟨.error ⟨cause, location⟩, scope, constants, []⟩, ?_, by simp, ?_, nofun⟩
  · rintro d s rfl rfl
    rfl
  · rintro _ ⟨⟩
    exact ⟨r, hr, hat⟩

theorem bind {x : Dispatcher → Eval α} {next : Dispatcher → α → Eval β}
    (hx : Accounted inside x visited) (hnext : ∀ a, Accounted inside (fun d => next d a) more) :
    Accounted inside (fun d => x d >>= next d) (visited ++ more) := by
  intro scope constants
  obtain ⟨⟨outcome, scope', constants', acts⟩, hfirst⟩ := hx scope constants
  cases outcome with
  | error e =>
      refine ⟨⟨.error e, scope', constants', acts⟩, fun d s => hfirst.tells.bind_error d s,
        hfirst.within, fun houtcome => hfirst.fatal ?_, nofun⟩
      cases houtcome
      rfl
  | ok a =>
      obtain ⟨second, hsecond⟩ := hnext a scope' constants'
      refine ⟨⟨second.outcome, second.scope, second.constants, acts ++ second.acts⟩,
        fun d s => hfirst.tells.bind hsecond.tells d s, ?_, hsecond.fatal, ?_⟩
      · intro act hact
        exact (List.mem_append.mp hact).elim (hfirst.within act) (hsecond.within act)
      · intro b hb
        rw [handed_append, hfirst.handed_eq rfl, hsecond.handed_eq hb]

-- The usual case of a step after which nothing is handed to the passes.
theorem andThen {x : Dispatcher → Eval α} {next : Dispatcher → α → Eval β}
    (hx : Accounted inside x visited) (hnext : ∀ a, Accounted inside (fun d => next d a) []) :
    Accounted inside (fun d => x d >>= next d) visited := by
  simpa using hx.bind hnext

theorem before {x : Dispatcher → Eval α} {next : Dispatcher → α → Eval β}
    (hx : Accounted inside x []) (hnext : ∀ a, Accounted inside (fun d => next d a) visited) :
    Accounted inside (fun d => x d >>= next d) visited :=
  hx.bind hnext

theorem visit {node : Node} (hnode : inside node.region) :
    Accounted inside (fun d => Eval.visit d node) node.expr?.toList := by
  intro scope constants
  refine ⟨⟨.ok (), scope, constants, [.visit node]⟩,
    fun d s => Account.Tells.visit node d s, ?_, nofun, fun _ => ?_⟩
  · intro act hact
    rw [List.mem_singleton.mp hact]
    exact hnode
  · cases node <;> rfl

theorem visit_pure {node : Node} (hnode : inside node.region) (a : α) :
    Accounted inside (fun d => Eval.visit d node >>= fun _ => Pure.pure a) node.expr?.toList :=
  (visit hnode).andThen fun _ => pure a

theorem read (f : State → α)
    (hf : ∀ s t : State, s.scope = t.scope → s.constants = t.constants → f s = f t) :
    Accounted inside (fun _ => (get >>= fun s => Pure.pure (f s) : Eval α)) [] := by
  intro scope constants
  refine ⟨⟨.ok (f { scope, constants }), scope, constants, []⟩, ?_, by simp, nofun, fun _ => rfl⟩
  rintro d s rfl rfl
  rw [EStateM.get_bind, hf s { scope := s.scope, constants := s.constants } rfl rfl]
  rfl

theorem rebind (f : Scope → Scope) :
    Accounted inside (fun _ => (modify fun s => { s with scope := f s.scope } : Eval Unit)) [] := by
  intro scope constants
  refine ⟨⟨.ok (), f scope, constants, []⟩, ?_, by simp, nofun, fun _ => rfl⟩
  rintro d s rfl rfl
  rfl

theorem declare (f : Scope → Scope) :
    Accounted inside (fun _ => (modify fun s => { s with constants := f s.constants } : Eval Unit))
      [] := by
  intro scope constants
  refine ⟨⟨.ok (), scope, f constants, []⟩, ?_, by simp, nofun, fun _ => rfl⟩
  rintro d s rfl rfl
  rfl

theorem operate (op : BinaryOp) (left right : Value) {e : Expr} {location : Location}
    (he : inside (.expr e)) (hlocation : e.location = location) :
    Accounted inside (fun _ => Eval.operate op left right location) [] := by
  subst hlocation
  intro scope constants
  refine ⟨⟨.ok (Value.binary op left right).value, scope, constants,
    Hazard.acts (Value.binary op left right).hazard e.location⟩,
    fun d s => Account.Tells.operate op left right e.location d s, ?_, nofun, fun _ => ?_⟩
  · intro act hact
    obtain ⟨hazard, -, rfl⟩ := List.mem_map.mp hact
    exact ⟨hazard, e, he, rfl⟩
  · cases (Value.binary op left right).hazard <;> rfl

theorem current (target : Expr) : Accounted inside (fun _ => Eval.current target) [] := by
  unfold Eval.current
  split
  · refine read _ fun s t hscope _ => ?_
    rw [State.valueOf, State.valueOf, hscope]
  · exact pure _

theorem store {target : Expr} (htarget : inside (.expr target)) (value : Value) :
    Accounted inside (fun _ => Eval.store target value) [] := by
  cases target with
  | var name location =>
      simp only [Eval.store]
      split
      · exact fatal htarget rfl
      · exact rebind _
  | element container _ _ | slot container _ =>
      simp only [Eval.store]
      split
      · exact rebind _
      · exact pure _
  | _ => exact pure _

theorem inScope {x : Dispatcher → Eval α} (hx : Accounted inside x visited) (scope : Scope) :
    Accounted inside (fun d => Eval.inScope scope (x d)) visited := by
  intro outer constants
  obtain ⟨⟨outcome, inner, constants', acts⟩, hinner⟩ := hx scope constants
  refine ⟨⟨outcome, outer, constants', acts⟩, ?_, hinner.within, hinner.fatal, hinner.handed_eq⟩
  rintro d s rfl rfl
  have hrun := hinner.result_eq d (s := { s with scope }) rfl rfl
  have hacts := State.performAll_rebind d s scope s.constants acts
  simp only [Account.result, hacts] at hrun ⊢
  simp only [Eval.inScope, hrun]
  cases outcome <;> rfl

theorem onBranch {x : Dispatcher → Eval Unit} (hx : Accounted inside x visited) :
    Accounted inside (fun d => Eval.onBranch (x d)) visited := by
  intro scope constants
  obtain ⟨⟨outcome, inner, constants', acts⟩, hinner⟩ := hx scope constants
  cases outcome with
  | error e =>
      refine ⟨⟨.error e, inner, constants', acts⟩, ?_, hinner.within, hinner.fatal, nofun⟩
      intro d s hs hc
      rw [onBranch_apply, hinner.result_eq d hs hc]
      rfl
  | ok a =>
      refine ⟨⟨.ok a, scope, constants', acts⟩, ?_, hinner.within, nofun, hinner.handed_eq⟩
      rintro d s rfl rfl
      rw [onBranch_apply, hinner.result_eq d rfl rfl]
      rfl

mutual
theorem evaluate : ∀ (e : Expr), (Region.expr e).Throughout inside →
    Accounted inside (PhpLint.evaluate · e) e.visited
  | .literal .., h | .interpolated .., h => by
      simp only [PhpLint.evaluate, Expr.visited]
      exact visit_pure h.self _
  | .var name _, h => by
      simp only [PhpLint.evaluate, Expr.visited]
      refine (visit h.self).andThen fun _ => read _ fun s t hscope _ => ?_
      rw [State.valueOf, State.valueOf, hscope]
  | .constant name _, h => by
      simp only [PhpLint.evaluate, Expr.visited]
      refine (visit h.self).andThen fun _ => read _ fun s t _ hconstants => ?_
      rw [State.constant, State.constant, hconstants]
  | .assign op target value location, h => by
      have htarget := h.inner (x := .expr target) (by simp [Region.inner, Expr.inner])
      have hvalue := h.inner (x := .expr value) (by simp [Region.inner, Expr.inner])
      simp only [PhpLint.evaluate, Expr.visited, List.append_assoc]
      split
      · refine (evaluateTarget target htarget).bind fun _ => ?_
        refine (evaluate value hvalue).bind fun v => ?_
        refine (visit h.self).andThen fun _ => ?_
        cases op with
        | none => exact (pure v).before fun _ => (store htarget.self _).before fun _ => pure _
        | some op =>
            refine (current target).before fun _ => (operate _ _ _ h.self rfl).before fun _ => ?_
            exact (store htarget.self _).before fun _ => pure _
      · exact fatal htarget.self rfl
  | .binary op left right location opLocation, h => by
      have hleft := h.inner (x := .expr left) (by simp [Region.inner, Expr.inner])
      have hright := h.inner (x := .expr right) (by simp [Region.inner, Expr.inner])
      simp only [PhpLint.evaluate, Expr.visited, List.append_assoc]
      refine (evaluate left hleft).bind fun _ => (evaluate right hright).bind fun _ => ?_
      exact (visit h.self).andThen fun _ => operate _ _ _ h.self rfl
  | .unary _ operand _ _, h | .cast _ operand _, h | .property operand _ _, h => by
      have hoperand := h.inner (x := .expr operand) (by simp [Region.inner, Expr.inner])
      simp only [PhpLint.evaluate, Expr.visited]
      exact (evaluate operand hoperand).bind fun _ => visit_pure h.self _
  | .array items _ _, h => by
      simp only [PhpLint.evaluate, Expr.visited]
      exact (evaluateItems items fun _ => h.inner).bind fun _ => visit_pure h.self _
  | .call _ arguments _, h | .staticCall _ _ arguments _, h | .new _ arguments _, h => by
      have harguments : ∀ e ∈ arguments, (Region.expr e).Throughout inside := fun e he =>
        h.inner (by simp [Region.inner, Expr.inner, he])
      simp only [PhpLint.evaluate, Expr.visited]
      exact (evaluateAll arguments harguments).bind fun _ => visit_pure h.self _
  | .methodCall object _ arguments _, h => by
      have hobject := h.inner (x := .expr object) (by simp [Region.inner, Expr.inner])
      have harguments : ∀ e ∈ arguments, (Region.expr e).Throughout inside := fun e he =>
        h.inner (by simp [Region.inner, Expr.inner, he])
      simp only [PhpLint.evaluate, Expr.visited, List.append_assoc]
      refine (evaluate object hobject).bind fun _ => ?_
      exact (evaluateAll arguments harguments).bind fun _ => visit_pure h.self _
  | .element container index _, h => by
      have hcontainer := h.inner (x := .expr container) (by simp [Region.inner, Expr.inner])
      have hindex := h.inner (x := .expr index) (by simp [Region.inner, Expr.inner])
      simp only [PhpLint.evaluate, Expr.visited, List.append_assoc]
      refine (evaluate container hcontainer).bind fun _ => ?_
      exact (evaluate index hindex).bind fun _ => visit_pure h.self _
  | .slot .., h | .invalid .., h => by
      simp only [PhpLint.evaluate]
      exact fatal h.self rfl

theorem evaluateTarget : ∀ (target : Expr), (Region.expr target).Throughout inside →
    Accounted inside (PhpLint.evaluateTarget · target) target.visitedPlace
  | .property object _ _, h => by
      have hobject := h.inner (x := .expr object) (by simp [Region.inner, Expr.inner])
      simp only [PhpLint.evaluateTarget, Expr.visitedPlace]
      exact (evaluate object hobject).andThen fun _ => pure _
  | .element container index _, h => by
      have hcontainer := h.inner (x := .expr container) (by simp [Region.inner, Expr.inner])
      have hindex := h.inner (x := .expr index) (by simp [Region.inner, Expr.inner])
      simp only [PhpLint.evaluateTarget, Expr.visitedPlace]
      refine (evaluateTarget container hcontainer).bind fun _ => ?_
      exact (evaluate index hindex).andThen fun _ => pure _
  | .slot container _, h => by
      have hcontainer := h.inner (x := .expr container) (by simp [Region.inner, Expr.inner])
      simp only [PhpLint.evaluateTarget, Expr.visitedPlace]
      exact evaluateTarget container hcontainer
  | .literal .., _ | .var .., _ | .constant .., _ | .assign .., _ | .binary .., _ | .unary .., _
  | .cast .., _ | .array .., _ | .call .., _ | .methodCall .., _ | .staticCall .., _ | .new .., _
  | .interpolated .., _ | .invalid .., _ => by
      simp only [PhpLint.evaluateTarget, Expr.visitedPlace]
      exact pure _

theorem evaluateAll : ∀ es : List Expr, (∀ e ∈ es, (Region.expr e).Throughout inside) →
    Accounted inside (PhpLint.evaluateAll · es) (visitedList es)
  | [], _ => by
      simp only [PhpLint.evaluateAll, visitedList]
      exact pure _
  | e :: es, h => by
      obtain ⟨he, hes⟩ := List.forall_mem_cons.mp h
      simp only [PhpLint.evaluateAll, visitedList]
      exact (evaluate e he).bind fun _ => (evaluateAll es hes).andThen fun _ => pure _

theorem evaluateItems : ∀ items : List ArrayItem,
    (∀ x ∈ items.flatMap ArrayItem.inner, x.Throughout inside) →
    Accounted inside (PhpLint.evaluateItems · items) (visitedItems items)
  | [], _ => by
      simp only [PhpLint.evaluateItems, visitedItems]
      exact pure _
  | .plain value :: items, h => by
      obtain ⟨hvalue, hitems⟩ := List.forall_mem_cons.mp h
      simp only [PhpLint.evaluateItems, visitedItems]
      refine (evaluate value hvalue).bind fun _ => ?_
      exact (evaluateItems items hitems).andThen fun _ => pure _
  | .keyed key value :: items, h => by
      obtain ⟨hkey, hrest⟩ := List.forall_mem_cons.mp h
      obtain ⟨hvalue, hitems⟩ := List.forall_mem_cons.mp hrest
      simp only [PhpLint.evaluateItems, visitedItems, List.append_assoc]
      refine (evaluate key hkey).bind fun _ => (evaluate value hvalue).bind fun _ => ?_
      exact (evaluateItems items hitems).andThen fun _ => pure _
end

theorem parameterScope : ∀ (scope : Scope) (parameters : List Parameter),
    (∀ p ∈ parameters, (Region.parameter p).Throughout inside) →
    Accounted inside (PhpLint.parameterScope · scope parameters)
      (visitedList (parameters.filterMap (·.default)))
  | _, [], _ => by
      simp only [PhpLint.parameterScope]
      exact pure _
  | scope, parameter :: rest, h => by
      obtain ⟨hparameter, hparameters⟩ := List.forall_mem_cons.mp h
      have hrest := parameterScope (scope.put parameter.name (.argument parameter.name)) rest
        hparameters
      simp only [PhpLint.parameterScope]
      cases hdefault : parameter.default with
      | none => simpa only [List.filterMap_cons, hdefault] using hrest
      | some e =>
          have he := hparameter.inner (x := .expr e) (by simp [Region.inner, hdefault])
          simp only [List.filterMap_cons, hdefault, visitedList]
          exact (evaluate e he).bind fun _ => hrest

mutual
theorem execute : ∀ s : Stmt, (Region.stmt s).Throughout inside →
    Accounted inside (PhpLint.execute · s) s.visited
  | .expr e _, h => by
      have he := h.inner (x := .expr e) (by simp [Region.inner, Stmt.inner])
      simp only [PhpLint.execute, Stmt.visited]
      exact (evaluate e he).andThen fun _ => visit h.self
  | .echo es _, h => by
      have hes : ∀ e ∈ es, (Region.expr e).Throughout inside := fun e he =>
        h.inner (List.mem_map_of_mem he)
      simp only [PhpLint.execute, Stmt.visited]
      exact (evaluateAll es hes).andThen fun _ => visit h.self
  | .ret none _, h | .html _, h => by
      simp only [PhpLint.execute]
      exact visit h.self
  | .ret (some e) _, h => by
      have he := h.inner (x := .expr e) (by simp [Region.inner, Stmt.inner])
      simp only [PhpLint.execute, Stmt.visited, Option.toList_some, visitedList, List.append_nil]
      exact (evaluate e he).andThen fun _ => visit h.self
  | .ifThen condition thenBranch _, h => by
      have hcondition := h.inner (x := .expr condition) (by simp [Region.inner, Stmt.inner])
      have hthen := h.inner (x := .stmt thenBranch) (by simp [Region.inner, Stmt.inner])
      simp only [PhpLint.execute, Stmt.visited]
      refine (evaluate condition hcondition).bind fun _ => (visit h.self).before fun _ => ?_
      exact (execute thenBranch hthen).onBranch.andThen fun _ => rebind _
  | .ifElse condition thenBranch elseBranch _, h => by
      have hcondition := h.inner (x := .expr condition) (by simp [Region.inner, Stmt.inner])
      have hthen := h.inner (x := .stmt thenBranch) (by simp [Region.inner, Stmt.inner])
      have helse := h.inner (x := .stmt elseBranch) (by simp [Region.inner, Stmt.inner])
      simp only [PhpLint.execute, Stmt.visited, List.append_assoc]
      refine (evaluate condition hcondition).bind fun _ => (visit h.self).before fun _ => ?_
      refine (execute thenBranch hthen).onBranch.bind fun _ => ?_
      exact (execute elseBranch helse).onBranch.andThen fun _ => rebind _
  | .loop condition body _, h => by
      have hcondition := h.inner (x := .expr condition) (by simp [Region.inner, Stmt.inner])
      have hbody := h.inner (x := .stmt body) (by simp [Region.inner, Stmt.inner])
      simp only [PhpLint.execute, Stmt.visited]
      refine (rebind _).before fun _ => ?_
      refine (evaluate condition hcondition).bind fun _ => (visit h.self).before fun _ => ?_
      exact (execute body hbody).andThen fun _ => rebind _
  | .block ⟨statements, _⟩, h => by
      have hstatements : ∀ s ∈ statements, (Region.stmt s).Throughout inside := fun s hs =>
        h.inner (List.mem_map_of_mem hs)
      simp only [PhpLint.execute, Stmt.visited]
      exact (visit h.self).before fun _ => executeAll statements hstatements
  | .functionDecl signature ⟨statements, place⟩ _, h => by
      have hparameters : ∀ p ∈ signature.parameters, (Region.parameter p).Throughout inside :=
        fun p hp => h.inner (by simp [Region.inner, Stmt.inner, Signature.inner, hp])
      have hbody := h.inner (x := .body ⟨statements, place⟩) (by simp [Region.inner, Stmt.inner])
      have hstatements : ∀ s ∈ statements, (Region.stmt s).Throughout inside := fun s hs =>
        hbody.inner (List.mem_map_of_mem hs)
      simp only [PhpLint.execute, Stmt.visited]
      refine (visit h.self).before fun _ => (parameterScope _ _ hparameters).bind fun scope => ?_
      exact (executeAll statements hstatements).inScope scope
  | .classDecl _ methods _, h => by
      have hmethods : ∀ m ∈ methods, (Region.method m).Throughout inside := fun m hm =>
        h.inner (List.mem_append_right _ (List.mem_map_of_mem hm))
      simp only [PhpLint.execute, Stmt.visited]
      exact (visit h.self).before fun _ => executeMethods _ methods hmethods
  | .constDecl name e _, h => by
      have he := h.inner (x := .expr e) (by simp [Region.inner, Stmt.inner])
      simp only [PhpLint.execute, Stmt.visited]
      refine (evaluate e he).andThen fun value => (visit h.self).before fun _ => ?_
      split
      · exact declare _
      · exact pure _
  | .invalid _, h => by
      simp only [PhpLint.execute]
      exact fatal h.self rfl

theorem executeAll : ∀ ss : List Stmt, (∀ s ∈ ss, (Region.stmt s).Throughout inside) →
    Accounted inside (PhpLint.executeAll · ss) (visitedBlock ss)
  | [], _ => by
      simp only [PhpLint.executeAll, visitedBlock]
      exact pure _
  | s :: ss, h => by
      obtain ⟨hs, hss⟩ := List.forall_mem_cons.mp h
      simp only [PhpLint.executeAll, visitedBlock]
      exact (execute s hs).bind fun _ => executeAll ss hss

theorem executeMethods (className : String) : ∀ methods : List Method,
    (∀ m ∈ methods, (Region.method m).Throughout inside) →
    Accounted inside (PhpLint.executeMethods · className methods) (visitedMethods methods)
  | [], _ => by
      simp only [PhpLint.executeMethods, visitedMethods]
      exact pure _
  | ⟨_, _, none, _⟩ :: methods, h => by
      obtain ⟨hmethod, hmethods⟩ := List.forall_mem_cons.mp h
      simp only [PhpLint.executeMethods, visitedMethods]
      exact (visit hmethod.self).before fun _ => executeMethods className methods hmethods
  | ⟨signature, modifiers, some ⟨statements, place⟩, _⟩ :: methods, h => by
      obtain ⟨hmethod, hmethods⟩ := List.forall_mem_cons.mp h
      have hparameters : ∀ p ∈ signature.parameters, (Region.parameter p).Throughout inside :=
        fun p hp => hmethod.inner (by simp [Region.inner, Signature.inner, hp])
      have hbody := hmethod.inner (x := .body ⟨statements, place⟩) (by simp [Region.inner])
      have hstatements : ∀ s ∈ statements, (Region.stmt s).Throughout inside := fun s hs =>
        hbody.inner (List.mem_map_of_mem hs)
      simp only [PhpLint.executeMethods, visitedMethods, List.append_assoc]
      refine (visit hmethod.self).before fun _ => ?_
      refine (parameterScope _ _ hparameters).bind fun scope => ?_
      refine ((executeAll statements hstatements).inScope _).bind fun _ => ?_
      exact executeMethods className methods hmethods
end

end Accounted

end PhpLint
