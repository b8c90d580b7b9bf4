import Mathlib.Data.List.Forall2
import PhpLint.Proofs.Analysis.Effect

namespace PhpLint

open Eval
open EStateM (after after_of_ok Keeps)

def ArrayItem.value : ArrayItem → Expr
  | plain value | keyed _ value => value

-- The operands whose values are handed over with an expression.
def Expr.shown : Expr → List Expr
  | assign _ _ value _ => [value]
  | binary _ left right _ _ => [left, right]
  | unary _ operand _ _ | cast _ operand _ | property operand _ _ => [operand]
  | array items _ _ => items.map ArrayItem.value
  | call _ arguments _ | methodCall _ _ arguments _ | staticCall _ _ arguments _
  | new _ arguments _ => arguments
  | element container index _ => [container, index]
  | literal .. | var .. | constant .. | slot .. | interpolated _ | invalid _ => []

-- Where the expression is the name of a constant, this is its value.
def Expr.Looks (lookup : String → Value) (e : Expr) (value : Value) : Prop :=
  ∀ name location, e = .constant name location → value = lookup name

namespace Node

def shown : Node → List Expr
  | expr e _ => e.shown
  | stmt s _ => s.operands
  | method _ => []

-- The constants among the operands were looked up like this.
def Looks (lookup : String → Value) (node : Node) : Prop :=
  List.Forall₂ (Expr.Looks lookup) node.shown node.operands

-- What a node declares the constant to be.
def declared? (name : String) : Node → Option Value
  | stmt (.constDecl declared _ _) [value] =>
    if declared.name = name ∧ value.isKnown then some value else none
  | _ => none

end Node

-- The last declaration of a constant among what was handed over, the latest first.
def latest? (events : List Event) (name : String) : Option Value :=
  events.findSome? fun event => event.node.declared? name

theorem latest?_append (events earlier : List Event) (name : String) :
    latest? (events ++ earlier) name = (latest? events name).or (latest? earlier name) := by
  simp only [latest?, List.findSome?_append]

-- What a constant is looked up to be once this was handed over.
def State.constantAfter (s : State) (events : List Event) (name : String) : Value :=
  (latest? events (dropSeparators name)).getD (s.constant name)

-- The constants of a later state are those of an earlier one but for the declarations
-- that were handed over in between.
def State.Declares (s t : State) (events : List Event) : Prop :=
  ∀ name, t.constants.get? name = (latest? events name).or (s.constants.get? name)

theorem State.Declares.constant_eq {s t : State} {events : List Event} (h : s.Declares t events)
    (name : String) : t.constant name = s.constantAfter events name := by
  simp only [State.constant, State.constantAfter, h (dropSeparators name)]
  cases latest? events (dropSeparators name) <;> rfl

theorem State.Declares.constantAfter_eq {s t : State} {events : List Event}
    (h : s.Declares t events) (more : List Event) :
    t.constantAfter more = s.constantAfter (more ++ events) := by
  funext name
  have hname := h.constant_eq name
  simp only [State.constantAfter] at hname ⊢
  rw [hname, latest?_append]
  cases latest? more (dropSeparators name) <;> rfl

-- From one state to a later one, everything that was looked up is what the declarations
-- before it say.
def Recorded (s t : State) : Prop :=
  ∃ events, t.events = events ++ s.events ∧ s.Declares t events ∧
    ∀ after event before, events = after ++ event :: before →
      event.node.Looks (s.constantAfter before)

namespace Recorded

theorem refl (s : State) : Recorded s s :=
  ⟨[], rfl, fun _ => rfl, fun after _ _ h => by simp at h⟩

theorem trans {s t u : State} (hst : Recorded s t) (htu : Recorded t u) : Recorded s u := by
  obtain ⟨early, hearly, hdeclares, hlooks⟩ := hst
  obtain ⟨late, hlate, hdeclares', hlooks'⟩ := htu
  refine ⟨late ++ early, ?_, ?_, ?_⟩
  · rw [hlate, hearly, List.append_assoc]
  · intro name
    rw [hdeclares' name, hdeclares name, latest?_append, Option.or_assoc]
  · intro after event before heq
    -- The node was handed over either before the state in the middle or after it.
    rcases List.append_eq_append_iff.mp heq with ⟨middle, hafter, hrest⟩ | ⟨middle, hmiddle, hrest⟩
    · exact hlooks middle event before hrest
    · cases middle with
      | nil => exact hlooks [] event before (by simpa using hrest.symm)
      | cons first middle =>
          obtain ⟨rfl, hbefore⟩ := List.cons.inj hrest
          have hmoment := hlooks' after event middle hmiddle
          rw [hdeclares.constantAfter_eq] at hmoment
          rwa [hbefore]

-- Constants and what was handed over are all that counts.
theorem of_eq {s t s' t' : State} (h : Recorded s t) (hs : s'.constants = s.constants)
    (hsevents : s'.events = s.events) (ht : t'.constants = t.constants)
    (htevents : t'.events = t.events) : Recorded s' t' := by
  have hconstant (events : List Event) : s'.constantAfter events = s.constantAfter events := by
    funext name
    simp only [State.constantAfter, State.constant, hs]
  obtain ⟨events, hevents, hdeclares, hlooks⟩ := h
  refine ⟨events, by rw [htevents, hsevents, hevents], fun name => ?_, ?_⟩
  · rw [ht, hs, hdeclares name]
  · intro after event before heq
    rw [hconstant]
    exact hlooks after event before heq

-- A declaration is handed over before it takes effect. Both steps together are recorded,
-- while the first one alone is not.
theorem of_declaration {s t : State} {name : Identifier} {e : Expr} {location : Location}
    {value : Value} (event : Event) (hnode : event.node = .stmt (.constDecl name e location) [value])
    (hlooks : e.Looks s.constant value) (hevents : t.events = event :: s.events)
    (hconstants : t.constants =
      if value.isKnown then s.constants.put name.name value else s.constants) :
    Recorded s t := by
  refine ⟨[event], hevents, fun other => ?_, ?_⟩
  · have hlatest : latest? [event] other =
        if name.name = other ∧ value.isKnown then some value else none := by
      simp [latest?, hnode, Node.declared?]
    rw [hconstants, hlatest]
    by_cases hknown : value.isKnown
    · by_cases hname : name.name = other
      · simp [hknown, hname, Entries.get?_put]
      · simp [hknown, hname, Ne.symm hname, Entries.get?_put]
    · simp [hknown]
  · intro after one before heq
    obtain ⟨rfl, rfl, rfl⟩ : after = [] ∧ one = event ∧ before = [] := by
      cases after with
      | nil => simpa [eq_comm] using heq
      | cons => simp at heq
    rw [hnode]
    exact .cons hlooks .nil

end Recorded

-- A node that declares nothing and has the constants among its operands as given.
structure Node.Consults (constants : Scope) (node : Node) : Prop where
  looks : node.Looks ({ constants } : State).constant
  declares (name : String) : node.declared? name = none

-- Between these states no constant was declared.
def Consulted (constants : Scope) (s t : State) : Prop :=
  t.constants = constants ∧
    ∃ events, t.events = events ++ s.events ∧ ∀ event ∈ events, event.node.Consults constants

theorem Consulted.recorded {s t : State} (h : Consulted s.constants s t) : Recorded s t := by
  obtain ⟨hconstants, events, hevents, hconsults⟩ := h
  have hlatest {some : List Event} (hsome : ∀ event ∈ some, event ∈ events) (name : String) :
      latest? some name = none :=
    List.findSome?_eq_none_iff.mpr fun event hevent =>
      (hconsults event (hsome event hevent)).declares name
  refine ⟨events, hevents, fun name => ?_, ?_⟩
  · rw [hlatest (fun _ => id) name, hconstants, Option.none_or]
  · intro after event before heq
    have hbefore : s.constantAfter before = ({ constants := s.constants } : State).constant := by
      funext name
      rw [State.constantAfter, hlatest (by simp +contextual [heq])]
      rfl
    rw [hbefore]
    exact (hconsults event (by simp [heq])).looks

namespace Eval

variable {α β : Type} {d : Dispatcher} {constants : Scope}

-- A step that declares no constant, with what is known about its result.
def Consults (constants : Scope) (x : Eval α) (good : α → Prop) : Prop :=
  ∀ s : State, s.constants = constants →
    Consulted constants s (after x s) ∧ ∀ a t, x s = .ok a t → good a

section Rules

variable {good : α → Prop} {fine : β → Prop}

theorem consults_pure {a : α} (h : good a) : Consults constants (pure a) good := by
  intro s hs
  refine ⟨⟨hs, [], rfl, List.forall_mem_nil _⟩, ?_⟩
  rintro _ _ ⟨⟩
  exact h

theorem consults_fatal (cause : FatalCause) (location : Location) :
    Consults constants (fatal cause location : Eval α) good :=
  fun _ hs => ⟨⟨hs, [], rfl, List.forall_mem_nil _⟩, nofun⟩

theorem consults_modify {change : State → State}
    (h : ∀ s, (change s).constants = s.constants ∧ (change s).events = s.events) :
    Consults constants (modify change : Eval Unit) fun _ => True :=
  fun s hs => ⟨⟨(h s).1.trans hs, [], (h s).2, List.forall_mem_nil _⟩, fun _ _ _ => trivial⟩

theorem consults_read {read : State → α} (h : ∀ s : State, s.constants = constants → good (read s)) :
    Consults constants (get >>= fun s => pure (read s) : Eval α) good := by
  intro s hs
  refine ⟨⟨hs, [], rfl, List.forall_mem_nil _⟩, ?_⟩
  rintro _ _ ⟨⟩
  exact h s hs

theorem consults_visit {node : Node} (h : node.Consults constants) :
    Consults constants (visit d node) fun _ => True :=
  fun _ hs => ⟨⟨hs, [⟨node, _⟩], rfl, List.forall_mem_singleton.mpr h⟩, fun _ _ _ => trivial⟩

theorem Consults.bind {x : Eval α} {next : α → Eval β} (hx : Consults constants x good)
    (hnext : ∀ a, good a → Consults constants (next a) fine) :
    Consults constants (x >>= next) fine := by
  intro s hs
  obtain ⟨⟨hconstants, early, hearly, hgood⟩, hresult⟩ := hx s hs
  cases he : x s with
  | ok a t =>
      rw [after_of_ok he] at hconstants hearly
      obtain ⟨⟨hconstants', late, hlate, hgood'⟩, hresult'⟩ := hnext a (hresult a t he) t hconstants
      rw [after, EStateM.bind_of_ok he]
      refine ⟨⟨hconstants', late ++ early, ?_, ?_⟩, hresult'⟩
      · rw [List.append_assoc, ← hearly]
        exact hlate
      · exact List.forall_mem_append.mpr ⟨hgood', hgood⟩
  | error e t =>
      rw [after, he] at hconstants hearly
      rw [after, EStateM.bind_of_error he]
      refine ⟨⟨hconstants, early, hearly, hgood⟩, ?_⟩
      intro b u hb
      cases hb

theorem consults_visitExpr {e : Expr} {operands : List Value}
    (h : List.Forall₂ (Expr.Looks ({ constants } : State).constant) e.shown operands) :
    Consults constants (visit d (.expr e operands)) fun _ => True :=
  consults_visit { looks := h, declares := fun _ => rfl }

-- The end of most evaluations.
theorem consults_result {e : Expr} {operands : List Value}
    (h : List.Forall₂ (Expr.Looks ({ constants } : State).constant) e.shown operands) (a : α) :
    Consults constants (visit d (.expr e operands) >>= fun _ => pure a) fun _ => True :=
  (consults_visitExpr h).bind fun _ _ => consults_pure trivial

end Rules

theorem consults_operate (op : BinaryOp) (left right : Value) (location : Location) :
    Consults constants (operate op left right location) fun _ => True := by
  intro s hs
  rw [after, operate_apply]
  refine ⟨?_, fun _ _ _ => trivial⟩
  cases (Value.binary op left right).hazard with
  | none => exact ⟨hs, [], rfl, List.forall_mem_nil _⟩
  | some hazard => exact ⟨hs, [], rfl, List.forall_mem_nil _⟩

theorem consults_current (target : Expr) :
    Consults constants (current target) fun _ => True := by
  unfold current
  split
  · exact consults_read fun _ _ => trivial
  · exact consults_pure trivial

theorem consults_store (target : Expr) (value : Value) :
    Consults constants (store target value) fun _ => True := by
  cases target with
  | var name location =>
      simp only [store]
      split
      · exact consults_fatal _ _
      · exact consults_modify fun _ => ⟨rfl, rfl⟩
  | element container _ _ | slot container _ =>
      simp only [store]
      split
      · exact consults_modify fun _ => ⟨rfl, rfl⟩
      · exact consults_pure trivial
  | _ => exact consults_pure trivial

-- The value of a constant is looked up where the evaluation starts, since nothing in an
-- expression declares one.
theorem Consults.looks {e : Expr} (h : Consults constants (evaluate d e) fun _ => True) :
    Consults constants (evaluate d e) (e.Looks ({ constants } : State).constant) := by
  intro s hs
  refine ⟨(h s hs).1, ?_⟩
  rintro value t hvalue name location rfl
  rw [evaluate] at hvalue
  obtain ⟨_, u, hvisit, hread⟩ := EStateM.bind_eq_ok_iff.mp hvalue
  cases hvisit
  cases hread
  rw [← hs]
  rfl

mutual
theorem consults_evaluate : ∀ e : Expr, Consults constants (evaluate d e) fun _ => True
  | .literal .. | .interpolated .. => by
      rw [evaluate]
      exact consults_result .nil _
  | .var .. | .constant .. => by
      rw [evaluate]
      apply (consults_visitExpr .nil).bind
      intro _ _
      exact consults_read fun _ _ => trivial
  | .assign op target value location => by
      rw [evaluate]
      split
      · apply (consults_evaluateTarget target).bind
        intro _ _
        apply (consults_evaluate value).looks.bind
        intro assigned hassigned
        apply (consults_visitExpr (.cons hassigned .nil)).bind
        intro _ _
        cases op with
        | none =>
            exact (consults_store target assigned).bind fun _ _ => consults_pure trivial
        | some op =>
            apply (consults_current target).bind
            intro old _
            apply (consults_operate op old assigned location).bind
            intro result _
            exact (consults_store target result).bind fun _ _ => consults_pure trivial
      · exact consults_fatal _ _
  | .binary op left right location _ => by
      rw [evaluate]
      apply (consults_evaluate left).looks.bind
      intro first hfirst
      apply (consults_evaluate right).looks.bind
      intro second hsecond
      apply (consults_visitExpr (.cons hfirst (.cons hsecond .nil))).bind
      intro _ _
      exact consults_operate op first second location
  | .unary _ operand _ _ | .cast _ operand _ | .property operand _ _ => by
      rw [evaluate]
      apply (consults_evaluate operand).looks.bind
      intro value hvalue
      exact consults_result (.cons hvalue .nil) _
  | .array items _ _ => by
      rw [evaluate]
      apply (consults_evaluateItems items).bind
      intro elements helements
      exact consults_result helements _
  | .call _ arguments _ | .staticCall _ _ arguments _ | .new _ arguments _ => by
      rw [evaluate]
      apply (consults_evaluateAll arguments).bind
      intro values hvalues
      exact consults_result hvalues _
  | .methodCall object _ arguments _ => by
      rw [evaluate]
      apply (consults_evaluate object).bind
      intro _ _
      apply (consults_evaluateAll arguments).bind
      intro values hvalues
      exact consults_result hvalues _
  | .element container index _ => by
      rw [evaluate]
      apply (consults_evaluate container).looks.bind
      intro first hfirst
      apply (consults_evaluate index).looks.bind
      intro second hsecond
      exact consults_result (.cons hfirst (.cons hsecond .nil)) _
  | .slot .. | .invalid .. => by
      rw [evaluate]
      exact consults_fatal _ _

theorem consults_evaluateTarget : ∀ target : Expr,
    Consults constants (evaluateTarget d target) fun _ => True
  | .property object _ _ => by
      rw [evaluateTarget]
      exact (consults_evaluate object).bind fun _ _ => consults_pure trivial
  | .element container index _ => by
      rw [evaluateTarget]
      apply (consults_evaluateTarget container).bind
      intro _ _
      exact (consults_evaluate index).bind fun _ _ => consults_pure trivial
  | .slot container _ => by
      rw [evaluateTarget]
      exact consults_evaluateTarget container
  | .literal .. | .var .. | .constant .. | .assign .. | .binary .. | .unary .. | .cast ..
  | .array .. | .call .. | .methodCall .. | .staticCall .. | .new .. | .interpolated ..
  | .invalid .. => by
      rw [evaluateTarget]
      · exact consults_pure trivial
      all_goals simp

theorem consults_evaluateAll : ∀ es : List Expr,
    Consults constants (evaluateAll d es)
      (List.Forall₂ (Expr.Looks ({ constants } : State).constant) es)
  | [] => by
      rw [evaluateAll]
      exact consults_pure .nil
  | e :: es => by
      rw [evaluateAll]
      apply (consults_evaluate e).looks.bind
      intro value hvalue
      apply (consults_evaluateAll es).bind
      intro values hvalues
      exact consults_pure (.cons hvalue hvalues)

theorem consults_evaluateItems : ∀ items : List ArrayItem,
    Consults constants (evaluateItems d items) fun elements =>
      List.Forall₂ (Expr.Looks ({ constants } : State).constant) (items.map ArrayItem.value)
        (elements.map Prod.snd)
  | [] => by
      rw [evaluateItems]
      exact consults_pure .nil
  | .plain e :: items => by
      rw [evaluateItems]
      apply (consults_evaluate e).looks.bind
      intro value hvalue
      apply (consults_evaluateItems items).bind
      intro values hvalues
      exact consults_pure (.cons hvalue hvalues)
  | .keyed key e :: items => by
      rw [evaluateItems]
      apply (consults_evaluate key).bind
      intro _ _
      apply (consults_evaluate e).looks.bind
      intro value hvalue
      apply (consults_evaluateItems items).bind
      intro values hvalues
      exact consults_pure (.cons hvalue hvalues)
end

theorem consults_parameterScope : ∀ (scope : Scope) (parameters : List Parameter),
    Consults constants (parameterScope d scope parameters) fun _ => True
  | _, [] => by
      rw [parameterScope]
      exact consults_pure trivial
  | scope, parameter :: rest => by
      rw [parameterScope]
      have hrest := consults_parameterScope (scope.put parameter.name (.argument parameter.name))
        rest
      split
      · exact (consults_evaluate _).bind fun _ _ => hrest
      · exact hrest

-- A step after which the constants are as the declarations on its way say.
def Records (x : Eval α) : Prop :=
  Keeps Recorded x

theorem Consults.records {good : α → Prop} {x : Eval α}
    (hx : ∀ constants, Consults constants x good) : Records x :=
  fun s => (hx s.constants s rfl).1.recorded

theorem Records.bind {x : Eval α} {next : α → Eval β} (hx : Records x)
    (hnext : ∀ a, Records (next a)) : Records (x >>= next) :=
  Keeps.bind hx hnext fun _ _ _ => Recorded.trans

theorem records_onBranch {x : Eval Unit} (hx : Records x) : Records (onBranch x) := by
  intro s
  have hs := hx s
  simp only [after, onBranch_apply] at hs ⊢
  cases he : x s with
  | ok a t =>
      rw [he] at hs
      exact hs.of_eq rfl rfl rfl rfl
  | error e t =>
      rw [he] at hs
      exact hs

theorem records_inScope {x : Eval α} (hx : Records x) (scope : Scope) :
    Records (inScope scope x) := by
  intro s
  have hs := hx { s with scope }
  simp only [after, inScope] at hs ⊢
  cases he : x { s with scope } with
  | ok a t | error e t =>
      rw [he] at hs
      exact hs.of_eq rfl rfl rfl rfl

theorem records_forget (names : List String) : Records (forget names) :=
  Consults.records fun _ => consults_modify fun _ => ⟨rfl, rfl⟩

-- A statement that is handed over with the values of its operands and declares nothing.
theorem consults_visitStmt {s : Stmt} {operands : List Value}
    (h : List.Forall₂ (Expr.Looks ({ constants } : State).constant) s.operands operands)
    (hdeclares : s.declaresConstant = false) :
    Consults constants (visit d (.stmt s operands)) fun _ => True := by
  refine consults_visit { looks := h, declares := fun name => ?_ }
  cases s with
  | constDecl => cases hdeclares
  | _ => rfl

theorem records_operand {s : Stmt} {e : Expr} (hoperands : s.operands = [e])
    (hdeclares : s.declaresConstant = false) :
    Records (evaluate d e >>= fun value => visit d (.stmt s [value])) := by
  apply Consults.records
  intro constants
  apply (consults_evaluate e).looks.bind
  intro value hvalue
  apply consults_visitStmt _ hdeclares
  rw [hoperands]
  exact .cons hvalue .nil

theorem records_visitStmt {s : Stmt} (hoperands : s.operands = [])
    (hdeclares : s.declaresConstant = false) : Records (visit d (.stmt s [])) := by
  apply Consults.records
  intro constants
  apply consults_visitStmt _ hdeclares
  rw [hoperands]
  exact .nil

theorem records_visitMethod (m : Method) : Records (visit d (.method m)) :=
  Consults.records fun _ => consults_visit { looks := .nil, declares := fun _ => rfl }

-- A statement whose condition is handed over before anything else is done.
theorem records_condition {s : Stmt} {e : Expr} {rest : Eval Unit} (hoperands : s.operands = [e])
    (hdeclares : s.declaresConstant = false) (hrest : Records rest) :
    Records (evaluate d e >>= fun value => visit d (.stmt s [value]) >>= fun _ => rest) := by
  have h := (records_operand (d := d) hoperands hdeclares).bind fun _ => hrest
  rwa [bind_assoc] at h

theorem records_declaration (name : Identifier) (e : Expr) (location : Location) :
    Records (execute d (.constDecl name e location)) := by
  intro s
  obtain ⟨hconsulted, hvalue⟩ := (consults_evaluate (d := d) e).looks s rfl
  rw [execute]
  cases he : evaluate d e s with
  | error fatal t =>
      rw [after, he] at hconsulted
      rw [after, EStateM.bind_of_error he]
      exact hconsulted.recorded
  | ok value t =>
      rw [after_of_ok he] at hconsulted
      have hlooks : e.Looks t.constant value := by
        have hstart := hvalue value t he
        rwa [← hconsulted.1] at hstart
      refine hconsulted.recorded.trans ?_
      rw [after, EStateM.bind_of_ok he]
      by_cases hknown : value.isKnown
      · simp only [hknown, if_true]
        exact .of_declaration ⟨_, _⟩ rfl hlooks rfl (by rw [if_pos hknown]; rfl)
      · simp only [hknown]
        exact .of_declaration ⟨_, _⟩ rfl hlooks rfl (by rw [if_neg hknown]; rfl)

mutual
theorem records_execute : ∀ s : Stmt, Records (execute d s)
  | .expr e location => by
      rw [execute]
      exact records_operand rfl rfl
  | .echo es location => by
      rw [execute]
      apply Consults.records
      intro constants
      apply (consults_evaluateAll es).bind
      intro values hvalues
      exact consults_visitStmt hvalues rfl
  | .ret none location | .html location => by
      rw [execute]
      exact records_visitStmt rfl rfl
  | .ret (some e) location => by
      rw [execute]
      exact records_operand rfl rfl
  | .ifThen condition thenBranch location => by
      rw [execute]
      apply records_condition rfl rfl
      exact (records_onBranch (records_execute thenBranch)).bind fun _ => records_forget _
  | .ifElse condition thenBranch elseBranch location => by
      rw [execute]
      apply records_condition rfl rfl
      apply (records_onBranch (records_execute thenBranch)).bind
      intro _
      exact (records_onBranch (records_execute elseBranch)).bind fun _ => records_forget _
  | .loop condition body location => by
      rw [execute]
      apply (records_forget _).bind
      intro _
      apply records_condition rfl rfl
      exact (records_execute body).bind fun _ => records_forget _
  | .block ⟨statements, location⟩ => by
      rw [execute]
      exact (records_visitStmt rfl rfl).bind fun _ => records_executeAll statements
  | .functionDecl signature ⟨statements, bodyLocation⟩ location => by
      rw [execute]
      apply (records_visitStmt rfl rfl).bind
      intro _
      apply (Consults.records fun _ => consults_parameterScope _ signature.parameters).bind
      intro scope
      exact records_inScope (records_executeAll statements) scope
  | .classDecl header methods location => by
      rw [execute]
      exact (records_visitStmt rfl rfl).bind fun _ => records_executeMethods _ methods
  | .constDecl name e location => records_declaration name e location
  | .invalid location => by
      rw [execute]
      exact @Consults.records _ (fun _ => True) _ fun _ => consults_fatal _ _

theorem records_executeAll : ∀ ss : List Stmt, Records (executeAll d ss)
  | [] => by
      rw [executeAll]
      exact fun s => .refl s
  | s :: ss => by
      rw [executeAll]
      exact (records_execute s).bind fun _ => records_executeAll ss

theorem records_executeMethods (className : String) : ∀ methods : List Method,
    Records (executeMethods d className methods)
  | [] => by
      rw [executeMethods]
      exact fun s => .refl s
  | ⟨signature, modifiers, none, location⟩ :: methods => by
      rw [executeMethods]
      exact (records_visitMethod _).bind fun _ => records_executeMethods className methods
  | ⟨signature, modifiers, some ⟨statements, bodyLocation⟩, location⟩ :: methods => by
      rw [executeMethods]
      apply (records_visitMethod _).bind
      intro _
      apply (Consults.records fun _ => consults_parameterScope _ signature.parameters).bind
      intro scope
      apply (records_inScope (records_executeAll statements) _).bind
      intro _
      exact records_executeMethods className methods
end

end Eval

-- The states that calls lead to from a given one, whatever the passes are and also where
-- calls end fatally.
inductive Calls (s : State) : State → Prop where
  | none : Calls s s
  | evaluate {t : State} (d : Dispatcher) (e : Expr) : Calls s t → Calls s (after (evaluate d e) t)
  | execute {t : State} (d : Dispatcher) (statement : Stmt) :
      Calls s t → Calls s (after (execute d statement) t)

theorem Calls.recorded {s t : State} (h : Calls s t) : Recorded s t := by
  induction h with
  | none => exact .refl s
  | evaluate d e _ ih => exact ih.trans ((Consults.records fun _ => consults_evaluate e) _)
  | execute d statement _ ih => exact ih.trans (records_execute statement _)

-- A constant keeps its value as long as every declaration gives it that value again.
theorem constantAfter_eq_iff (s : State) (events earlier : List Event) (name : String) :
    (∀ some, some <:+ events →
        s.constantAfter (some ++ earlier) name = s.constantAfter earlier name) ↔
      ∀ event ∈ events, ∀ value, event.node.declared? (dropSeparators name) = some value →
        value = s.constantAfter earlier name := by
  constructor
  · intro h event hevent value hvalue
    obtain ⟨later, before, rfl⟩ := List.append_of_mem hevent
    have hmoment := h (event :: before) (List.suffix_append _ _)
    rw [← hmoment]
    simp [State.constantAfter, latest?, hvalue]
  · intro h some hsome
    have hsplit : s.constantAfter (some ++ earlier) name =
        (latest? some (dropSeparators name)).getD (s.constantAfter earlier name) := by
      simp only [State.constantAfter, latest?_append]
      cases latest? some (dropSeparators name) <;> rfl
    rw [hsplit]
    cases hlatest : latest? some (dropSeparators name) with
    | none => rfl
    | some value =>
        obtain ⟨event, hevent, hvalue⟩ := List.exists_of_findSome?_eq_some hlatest
        exact h event (hsome.subset hevent) value hvalue

-- In a sequence of calls a constant is what its last declaration says, and what it was
-- before if there is none. That is what is found by a lookup after the calls and by every
-- lookup on the way. So a constant keeps the value that it has at some moment exactly if
-- no declaration after that moment gives it another one.
theorem constants_follow_declarations {s t : State} (h : Calls s t) :
    ∃ events, t.events = events ++ s.events ∧
      (∀ name, t.constant name = s.constantAfter events name) ∧
      (∀ later event earlier, events = later ++ event :: earlier →
        event.node.Looks (s.constantAfter earlier)) ∧
      ∀ later earlier name, events = later ++ earlier →
        ((∀ some, some <:+ later →
            s.constantAfter (some ++ earlier) name = s.constantAfter earlier name) ↔
          ∀ event ∈ later, ∀ value, event.node.declared? (dropSeparators name) = some value →
            value = s.constantAfter earlier name) := by
  obtain ⟨events, hevents, hdeclares, hlooks⟩ := h.recorded
  refine ⟨events, hevents, hdeclares.constant_eq, hlooks, ?_⟩
  intro later earlier name _
  exact constantAfter_eq_iff s later earlier name

-- const A = 1;
def constantStmt (name : String) (value : Literal) : Stmt :=
  .constDecl ⟨name, default⟩ (.literal value default) default

-- function f() { const A = 1; $this = A; } ends fatally and yet declares the constant.
theorem constants_follow_declarations_inBody :
    let body : Block := ⟨[constantStmt "A" (.int 1),
      .expr (.assign none (.var "this" default) (.constant "A" default) default) default], default⟩
    let t := after (execute {} (.functionDecl ⟨⟨"f", default⟩, [], none⟩ body default)) {}
    Calls {} t ∧ t.constant "A" = .int 1 ∧
      ∃ events, t.events = events ++ [] ∧
        (∀ name, t.constant name = ({} : State).constantAfter events name) ∧
        ∀ later event earlier, events = later ++ event :: earlier →
          event.node.Looks (({} : State).constantAfter earlier) := by
  intro body t
  have hcalls : Calls {} t := .execute _ _ .none
  obtain ⟨events, hevents, hconstant, hlooks, -⟩ := constants_follow_declarations hcalls
  exact ⟨hcalls, by decide, events, hevents, hconstant, hlooks⟩

-- A second declaration takes the place of the first one and of what the language defines.
theorem constants_change_when_redeclared :
    let s := after (execute {} (constantStmt "A" (.int 1))) {}
    let t := after (execute {} (constantStmt "A" (.int 2))) s
    let u := after (execute {} (constantStmt "PHP_INT_MAX" (.int 1))) t
    Calls s t ∧ s.constant "A" = .int 1 ∧ t.constant "A" = .int 2 ∧
      Calls t u ∧ t.constant "PHP_INT_MAX" = .int 9223372036854775807 ∧
      u.constant "\\PHP_INT_MAX" = .int 1 := by
  intro s t u
  exact ⟨.execute _ _ .none, by decide, by decide, .execute _ _ .none, by decide, by decide⟩

end PhpLint
