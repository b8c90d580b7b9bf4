import PhpLint.Proofs.Analysis.Effect
import PhpLint.Proofs.Value.WellFormed

namespace PhpLint

open EStateM (after)

structure State.WellFormed (s : State) : Prop where
  scope : ∀ entry ∈ s.scope, entry.2.WellFormed
  constants : ∀ entry ∈ s.constants, entry.2.WellFormed
  events : ∀ event ∈ s.events, ∀ value ∈ event.node.operands, value.WellFormed

-- The states that calls lead to, whatever the passes are and also where calls end
-- fatally.
inductive Reached : State → Prop where
  | fresh (issues : Issues) : Reached { issues }
  | evaluate {s : State} (d : Dispatcher) (e : Expr) :
      Reached s → Reached (after (evaluate d e) s)
  | execute {s : State} (d : Dispatcher) (statement : Stmt) :
      Reached s → Reached (after (execute d statement) s)

namespace State

variable {s : State}

theorem WellFormed.valueOf (h : s.WellFormed) (name : String) : (s.valueOf name).WellFormed := by
  rw [State.valueOf]
  cases hget : s.scope.get? name with
  | none => exact .plain rfl
  | some value => exact h.scope _ (Entries.mem_of_get? hget)

theorem wellFormed_builtinConstants : ∀ entry ∈ builtinConstants, entry.2.WellFormed := by
  have hplain : ∀ entry ∈ builtinConstants, entry.2.hasEntries = false := by decide
  exact fun entry hentry => .plain (hplain entry hentry)

theorem WellFormed.constant (h : s.WellFormed) (name : String) :
    (s.constant name).WellFormed := by
  simp only [State.constant]
  cases hdeclared : s.constants.get? (dropSeparators name) with
  | some value => exact h.constants _ (Entries.mem_of_get? hdeclared)
  | none =>
      cases hbuiltin : builtinConstants.get? (dropSeparators name) with
      | some value => exact wellFormed_builtinConstants _ (Entries.mem_of_get? hbuiltin)
      | none => exact .plain rfl

theorem WellFormed.visit (h : s.WellFormed) (d : Dispatcher) {node : Node}
    (hnode : ∀ value ∈ node.operands, value.WellFormed) : (s.visit d node).WellFormed := by
  refine ⟨h.scope, h.constants, ?_⟩
  intro event hevent
  rcases List.mem_cons.mp hevent with rfl | hpast
  · exact hnode
  · exact h.events event hpast

theorem WellFormed.put (h : s.WellFormed) (name : String) {value : Value}
    (hvalue : value.WellFormed) : { s with scope := s.scope.put name value }.WellFormed :=
  ⟨Entries.forall_put hvalue h.scope, h.constants, h.events⟩

theorem WellFormed.forget (h : s.WellFormed) (names : List String) :
    { s with scope := s.scope.forget names }.WellFormed := by
  refine ⟨?_, h.constants, h.events⟩
  intro entry hentry
  obtain ⟨⟨name, value⟩, hold, rfl⟩ := List.mem_map.mp hentry
  show (if name ∈ names then Value.unknown else value).WellFormed
  by_cases hname : name ∈ names
  · rw [if_pos hname]
    exact .plain rfl
  · rw [if_neg hname]
    exact h.scope _ hold

theorem WellFormed.rebind (h : s.WellFormed) {scope : Scope}
    (hscope : ∀ entry ∈ scope, entry.2.WellFormed) : { s with scope }.WellFormed :=
  ⟨hscope, h.constants, h.events⟩

end State

namespace Eval

variable {α β : Type} {d : Dispatcher}

-- From a well-formed state the step leads to one in any case, and its result is good if it
-- has one.
def Yields (x : Eval α) (good : α → Prop) : Prop :=
  ∀ s : State, s.WellFormed → (after x s).WellFormed ∧ ∀ a t, x s = .ok a t → good a

section Rules

variable {good : α → Prop} {fine : β → Prop}

theorem yields_pure {a : α} (h : good a) : Yields (pure a) good := by
  intro s hs
  refine ⟨hs, ?_⟩
  rintro _ _ ⟨⟩
  exact h

theorem yields_fatal (cause : FatalCause) (location : Location) :
    Yields (fatal cause location : Eval α) good :=
  fun _ hs => ⟨hs, nofun⟩

theorem yields_modify {change : State → State} (h : ∀ s, s.WellFormed → (change s).WellFormed) :
    Yields (modify change : Eval Unit) fun _ => True :=
  fun s hs => ⟨h s hs, fun _ _ _ => trivial⟩

theorem yields_read {read : State → α} (h : ∀ s : State, s.WellFormed → good (read s)) :
    Yields (get >>= fun s => pure (read s) : Eval α) good := by
  intro s hs
  refine ⟨hs, ?_⟩
  rintro _ _ ⟨⟩
  exact h s hs

theorem Yields.bind {x : Eval α} {next : α → Eval β} (hx : Yields x good)
    (hnext : ∀ a, good a → Yields (next a) fine) : Yields (x >>= next) fine := by
  intro s hs
  obtain ⟨hstate, hresult⟩ := hx s hs
  cases he : x s with
  | ok a t =>
      rw [EStateM.after_of_ok he] at hstate
      have hlast := hnext a (hresult a t he) t hstate
      rw [EStateM.after, EStateM.bind_of_ok he]
      exact hlast
  | error e t =>
      rw [EStateM.after, he] at hstate
      rw [EStateM.after, EStateM.bind_of_error he]
      refine ⟨hstate, ?_⟩
      intro b u hb
      cases hb

theorem yields_visitExpr (e : Expr) {operands : List Value}
    (h : ∀ value ∈ operands, value.WellFormed) :
    Yields (visit d (.expr e operands)) fun _ => True :=
  yields_modify fun _ hs => hs.visit d h

theorem yields_visitStmt (s : Stmt) {operands : List Value}
    (h : ∀ value ∈ operands, value.WellFormed) :
    Yields (visit d (.stmt s operands)) fun _ => True :=
  yields_modify fun _ hs => hs.visit d h

theorem yields_visitMethod (m : Method) : Yields (visit d (.method m)) fun _ => True :=
  yields_modify fun _ hs => hs.visit d (List.forall_mem_nil _)

-- The end of most evaluations.
theorem yields_result (e : Expr) {operands : List Value} {a : α}
    (h : ∀ value ∈ operands, value.WellFormed) (ha : good a) :
    Yields (visit d (.expr e operands) >>= fun _ => pure a) good :=
  (yields_visitExpr e h).bind fun _ _ => yields_pure ha

theorem yields_forget (names : List String) : Yields (forget names) fun _ => True :=
  yields_modify fun _ hs => hs.forget names

theorem yields_bindVariable (name : String) {value : Value} (h : value.WellFormed) :
    Yields (bindVariable name value) fun _ => True :=
  yields_modify fun _ hs => hs.put name h

theorem yields_inScope {x : Eval α} {scope : Scope} (hscope : ∀ entry ∈ scope, entry.2.WellFormed)
    (hx : Yields x good) : Yields (inScope scope x) good := by
  intro s hs
  obtain ⟨hstate, hresult⟩ := hx { s with scope } (hs.rebind hscope)
  rw [EStateM.after] at hstate ⊢
  rw [inScope]
  cases he : x { s with scope } with
  | ok a t =>
      rw [he] at hstate
      refine ⟨hstate.rebind hs.scope, ?_⟩
      rintro _ _ ⟨⟩
      exact hresult a t he
  | error e t =>
      rw [he] at hstate
      refine ⟨hstate.rebind hs.scope, ?_⟩
      intro a u ha
      cases ha

theorem yields_onBranch {x : Eval Unit} (hx : Yields x fun _ => True) :
    Yields (onBranch x) fun _ => True := by
  intro s hs
  refine ⟨?_, fun _ _ _ => trivial⟩
  have hstate := (hx s hs).1
  rw [EStateM.after] at hstate ⊢
  rw [onBranch_apply]
  cases he : x s with
  | ok a t =>
      rw [he] at hstate
      exact hstate.rebind hs.scope
  | error e t =>
      rw [he] at hstate
      exact hstate

theorem yields_operate (op : BinaryOp) (left right : Value) (location : Location) :
    Yields (operate op left right location) Value.WellFormed := by
  intro s hs
  rw [EStateM.after, operate_apply]
  refine ⟨?_, ?_⟩
  · cases (Value.binary op left right).hazard with
    | none => exact hs
    | some hazard => exact ⟨hs.scope, hs.constants, hs.events⟩
  · rintro _ _ ⟨⟩
    exact Value.wellFormed_binary op left right

theorem yields_current (target : Expr) : Yields (current target) Value.WellFormed := by
  unfold current
  split
  · exact yields_read fun s hs => hs.valueOf _
  · exact yields_pure (.plain rfl)

theorem yields_store (target : Expr) {value : Value} (h : value.WellFormed) :
    Yields (store target value) fun _ => True := by
  cases target with
  | var name location =>
      simp only [store]
      split
      · exact yields_fatal _ _
      · exact yields_bindVariable name h
  | element container _ _ | slot container _ =>
      simp only [store]
      split
      · exact yields_bindVariable _ (.plain rfl)
      · exact yields_pure trivial
  | _ => exact yields_pure trivial

end Rules

theorem forall_mem_pair {P : Value → Prop} {v w : Value} (hv : P v) (hw : P w) :
    ∀ value ∈ [v, w], P value := by
  simp [hv, hw]

mutual
theorem yields_evaluate : ∀ e : Expr, Yields (evaluate d e) Value.WellFormed
  | .literal value _ => by
      rw [evaluate]
      apply yields_result _ (List.forall_mem_nil _)
      cases value <;> exact .plain rfl
  | .interpolated _ => by
      rw [evaluate]
      exact yields_result _ (List.forall_mem_nil _) (.plain rfl)
  | .var name _ => by
      rw [evaluate]
      exact (yields_visitExpr _ (List.forall_mem_nil _)).bind fun _ _ => yields_read fun s hs => hs.valueOf name
  | .constant name _ => by
      rw [evaluate]
      exact (yields_visitExpr _ (List.forall_mem_nil _)).bind fun _ _ => yields_read fun s hs => hs.constant name
  | .assign op target value location => by
      rw [evaluate]
      split
      · apply (yields_evaluateTarget target).bind
        intro _ _
        apply (yields_evaluate value).bind
        intro v hv
        apply (yields_visitExpr _ (List.forall_mem_singleton.mpr hv)).bind
        intro _ _
        cases op with
        | none =>
            apply (yields_pure hv).bind
            intro result hresult
            exact (yields_store target hresult).bind fun _ _ => yields_pure hresult
        | some op =>
            apply (yields_current target).bind
            intro old _
            apply (yields_operate op old v location).bind
            intro result hresult
            exact (yields_store target hresult).bind fun _ _ => yields_pure hresult
      · exact yields_fatal _ _
  | .binary op left right location _ => by
      rw [evaluate]
      apply (yields_evaluate left).bind
      intro v hv
      apply (yields_evaluate right).bind
      intro w hw
      apply (yields_visitExpr _ (forall_mem_pair hv hw)).bind
      intro _ _
      exact yields_operate op v w location
  | .unary op operand _ _ => by
      rw [evaluate]
      apply (yields_evaluate operand).bind
      intro v hv
      exact yields_result _ (List.forall_mem_singleton.mpr hv) (Value.wellFormed_unary op v)
  | .cast type operand _ => by
      rw [evaluate]
      apply (yields_evaluate operand).bind
      intro v hv
      exact yields_result _ (List.forall_mem_singleton.mpr hv) (Value.wellFormed_cast type hv)
  | .array items _ _ => by
      rw [evaluate]
      apply (yields_evaluateItems items).bind
      intro elements helements
      exact yields_result _ (List.forall_mem_map.mpr helements)
        (Value.wellFormed_ofElements helements)
  | .call _ arguments _ | .staticCall _ _ arguments _ | .new _ arguments _ => by
      rw [evaluate]
      apply (yields_evaluateAll arguments).bind
      intro values hvalues
      exact yields_result _ hvalues (.plain rfl)
  | .methodCall object _ arguments _ => by
      rw [evaluate]
      apply (yields_evaluate object).bind
      intro _ _
      apply (yields_evaluateAll arguments).bind
      intro values hvalues
      exact yields_result _ hvalues (.plain rfl)
  | .property object _ _ => by
      rw [evaluate]
      apply (yields_evaluate object).bind
      intro v hv
      exact yields_result _ (List.forall_mem_singleton.mpr hv) (.plain rfl)
  | .element container index _ => by
      rw [evaluate]
      apply (yields_evaluate container).bind
      intro v hv
      apply (yields_evaluate index).bind
      intro w hw
      exact yields_result _ (forall_mem_pair hv hw) (Value.wellFormed_element w hv)
  | .slot .. | .invalid .. => by
      rw [evaluate]
      exact yields_fatal _ _

theorem yields_evaluateTarget : ∀ target : Expr, Yields (evaluateTarget d target) fun _ => True
  | .property object _ _ => by
      rw [evaluateTarget]
      exact (yields_evaluate object).bind fun _ _ => yields_pure trivial
  | .element container index _ => by
      rw [evaluateTarget]
      apply (yields_evaluateTarget container).bind
      intro _ _
      exact (yields_evaluate index).bind fun _ _ => yields_pure trivial
  | .slot container _ => by
      rw [evaluateTarget]
      exact yields_evaluateTarget container
  | .literal .. | .var .. | .constant .. | .assign .. | .binary .. | .unary .. | .cast ..
  | .array .. | .call .. | .methodCall .. | .staticCall .. | .new .. | .interpolated ..
  | .invalid .. => by
      rw [evaluateTarget]
      · exact yields_pure trivial
      all_goals simp

theorem yields_evaluateAll : ∀ es : List Expr,
    Yields (evaluateAll d es) fun values => ∀ value ∈ values, value.WellFormed
  | [] => by
      rw [evaluateAll]
      exact yields_pure nofun
  | e :: es => by
      rw [evaluateAll]
      apply (yields_evaluate e).bind
      intro v hv
      apply (yields_evaluateAll es).bind
      intro values hvalues
      exact yields_pure (List.forall_mem_cons.mpr ⟨hv, hvalues⟩)

theorem yields_evaluateItems : ∀ items : List ArrayItem,
    Yields (evaluateItems d items) fun elements => ∀ element ∈ elements, element.2.WellFormed
  | [] => by
      rw [evaluateItems]
      exact yields_pure nofun
  | .plain value :: items => by
      rw [evaluateItems]
      apply (yields_evaluate value).bind
      intro v hv
      apply (yields_evaluateItems items).bind
      intro elements helements
      exact yields_pure (List.forall_mem_cons.mpr ⟨hv, helements⟩)
  | .keyed key value :: items => by
      rw [evaluateItems]
      apply (yields_evaluate key).bind
      intro _ _
      apply (yields_evaluate value).bind
      intro v hv
      apply (yields_evaluateItems items).bind
      intro elements helements
      exact yields_pure (List.forall_mem_cons.mpr ⟨hv, helements⟩)
end

theorem yields_parameterScope : ∀ (scope : Scope) (parameters : List Parameter),
    (∀ entry ∈ scope, entry.2.WellFormed) →
    Yields (parameterScope d scope parameters) fun result => ∀ entry ∈ result, entry.2.WellFormed
  | _, [], hscope => by
      rw [parameterScope]
      exact yields_pure hscope
  | scope, parameter :: rest, hscope => by
      have hput : ∀ entry ∈ scope.put parameter.name (.argument parameter.name),
          entry.2.WellFormed := Entries.forall_put (.plain rfl) hscope
      have hrest := yields_parameterScope _ rest hput
      rw [parameterScope]
      cases parameter.default with
      | none => exact hrest
      | some e => exact (yields_evaluate e).bind fun _ _ => hrest

theorem wellFormed_methodScope (className : String) (modifiers : List Modifier) {scope : Scope}
    (h : ∀ entry ∈ scope, entry.2.WellFormed) :
    ∀ entry ∈ methodScope className modifiers scope, entry.2.WellFormed := by
  rw [methodScope]
  split
  · exact h
  · exact Entries.forall_put (.plain rfl) h

mutual
theorem yields_execute : ∀ s : Stmt, Yields (execute d s) fun _ => True
  | .expr e _ | .ret (some e) _ => by
      rw [execute]
      apply (yields_evaluate e).bind
      intro v hv
      exact yields_visitStmt _ (List.forall_mem_singleton.mpr hv)
  | .echo es _ => by
      rw [execute]
      exact (yields_evaluateAll es).bind fun _ hvalues => yields_visitStmt _ hvalues
  | .ret none _ | .html _ => by
      rw [execute]
      exact yields_visitStmt _ (List.forall_mem_nil _)
  | .ifThen condition thenBranch _ => by
      rw [execute]
      apply (yields_evaluate condition).bind
      intro v hv
      apply (yields_visitStmt _ (List.forall_mem_singleton.mpr hv)).bind
      intro _ _
      apply (yields_onBranch (yields_execute thenBranch)).bind
      intro _ _
      exact yields_forget _
  | .ifElse condition thenBranch elseBranch _ => by
      rw [execute]
      apply (yields_evaluate condition).bind
      intro v hv
      apply (yields_visitStmt _ (List.forall_mem_singleton.mpr hv)).bind
      intro _ _
      apply (yields_onBranch (yields_execute thenBranch)).bind
      intro _ _
      apply (yields_onBranch (yields_execute elseBranch)).bind
      intro _ _
      exact yields_forget _
  | .loop condition body _ => by
      rw [execute]
      apply (yields_forget _).bind
      intro _ _
      apply (yields_evaluate condition).bind
      intro v hv
      apply (yields_visitStmt _ (List.forall_mem_singleton.mpr hv)).bind
      intro _ _
      apply (yields_execute body).bind
      intro _ _
      exact yields_forget _
  | .block ⟨statements, _⟩ => by
      rw [execute]
      apply (yields_visitStmt _ (List.forall_mem_nil _)).bind
      intro _ _
      exact yields_executeAll statements
  | .functionDecl signature ⟨statements, _⟩ _ => by
      rw [execute]
      apply (yields_visitStmt _ (List.forall_mem_nil _)).bind
      intro _ _
      apply (yields_parameterScope [] signature.parameters (List.forall_mem_nil _)).bind
      intro scope hscope
      exact yields_inScope hscope (yields_executeAll statements)
  | .classDecl header methods _ => by
      rw [execute]
      apply (yields_visitStmt _ (List.forall_mem_nil _)).bind
      intro _ _
      exact yields_executeMethods header.name.name methods
  | .constDecl name e _ => by
      rw [execute]
      apply (yields_evaluate e).bind
      intro v hv
      apply (yields_visitStmt _ (List.forall_mem_singleton.mpr hv)).bind
      intro _ _
      split
      · apply yields_modify
        intro s hs
        exact ⟨hs.scope, Entries.forall_put hv hs.constants, hs.events⟩
      · exact yields_pure trivial
  | .invalid _ => by
      rw [execute]
      exact yields_fatal _ _

theorem yields_executeAll : ∀ ss : List Stmt, Yields (executeAll d ss) fun _ => True
  | [] => by
      rw [executeAll]
      exact yields_pure trivial
  | s :: ss => by
      rw [executeAll]
      exact (yields_execute s).bind fun _ _ => yields_executeAll ss

theorem yields_executeMethods (className : String) : ∀ methods : List Method,
    Yields (executeMethods d className methods) fun _ => True
  | [] => by
      rw [executeMethods]
      exact yields_pure trivial
  | ⟨signature, modifiers, none, location⟩ :: methods => by
      rw [executeMethods]
      apply (yields_visitMethod ⟨signature, modifiers, none, location⟩).bind
      intro _ _
      exact yields_executeMethods className methods
  | ⟨signature, modifiers, some ⟨statements, place⟩, location⟩ :: methods => by
      rw [executeMethods]
      apply (yields_visitMethod ⟨signature, modifiers, some ⟨statements, place⟩, location⟩).bind
      intro _ _
      apply (yields_parameterScope [] signature.parameters (List.forall_mem_nil _)).bind
      intro scope hscope
      have hbody := wellFormed_methodScope className modifiers hscope
      apply (yields_inScope hbody (yields_executeAll statements)).bind
      intro _ _
      exact yields_executeMethods className methods
end

end Eval

-- The induction is on the calls. One call keeps the state well formed wherever it ends.
theorem Reached.wellFormed {s : State} (h : Reached s) : s.WellFormed := by
  induction h with
  | fresh issues => exact ⟨List.forall_mem_nil _, List.forall_mem_nil _, List.forall_mem_nil _⟩
  | evaluate d e _ ih => exact (Eval.yields_evaluate e _ ih).1
  | execute d statement _ ih => exact (Eval.yields_execute statement _ ih).1

-- Whatever calls came before, arrays are well formed wherever a value can be met: among
-- the variables and constants, among the operands that were handed to the passes, and as
-- the result of a further call.
theorem arrays_stay_well_formed {s : State} (h : Reached s) :
    (∀ entry ∈ s.scope, entry.2.WellFormed) ∧
    (∀ entry ∈ s.constants, entry.2.WellFormed) ∧
    (∀ event ∈ s.events, ∀ value ∈ event.node.operands, value.WellFormed) ∧
    (∀ d e value t, evaluate d e s = .ok value t → value.WellFormed) := by
  have hs := h.wellFormed
  refine ⟨hs.scope, hs.constants, hs.events, ?_⟩
  intro d e value t hvalue
  exact (Eval.yields_evaluate e s hs).2 value t hvalue

-- $a = ["7" => 1, 7 => [true]]
def keyedArrayExpr (l : Location) : Expr :=
  .assign none (.var "a" l) (.array [.keyed (.literal (.string "7") l) (.literal (.int 1) l),
    .keyed (.literal (.int 7) l) (.array [.plain (.literal (.bool true) l)] .short l)] .short l) l

-- The text is the same key as the integer.
theorem arrays_stay_well_formed_keyedArray :
    let s := after (evaluate (Dispatcher.ofPasses []) (keyedArrayExpr default)) {}
    Reached s ∧ s.scope = [("a", .array [(.int 7, .array [(.int 0, .bool true)])])] ∧
    (∀ entry ∈ s.scope, entry.2.WellFormed) ∧
    (∀ event ∈ s.events, ∀ value ∈ event.node.operands, value.WellFormed) := by
  intro s
  have hreached : Reached s := .evaluate _ _ (.fresh [])
  obtain ⟨hscope, -, hevents, -⟩ := arrays_stay_well_formed hreached
  exact ⟨hreached, by decide, hscope, hevents⟩

end PhpLint
