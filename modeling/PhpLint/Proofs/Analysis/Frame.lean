import PhpLint.Proofs.Analysis.Effect

namespace PhpLint

open Eval
open EStateM (after_of_ok Keeps)

variable {α β : Type} {d : Dispatcher}

theorem Scope.get?_forget (scope : Scope) (names : List String) (name : String) :
    (scope.forget names).get? name =
      if name ∈ names then (scope.get? name).map fun _ => Value.unknown else scope.get? name := by
  induction scope with
  | nil => simp [Scope.forget, Entries.get?]
  | cons entry rest ih =>
      obtain ⟨key, value⟩ := entry
      simp only [Scope.forget, Entries.get?, List.map_cons, List.lookup_cons] at ih ⊢
      by_cases hkey : name = key
      · subst hkey
        by_cases hmem : name ∈ names <;> simp [hmem]
      · have hb : (name == key) = false := by simpa using hkey
        simpa only [hb] using ih

-- Nothing that was handed to the passes is taken back.
def Grown (_ : List String) (s t : State) : Prop :=
  s.events <:+ t.events

theorem grown_effect (d : Dispatcher) : Effect d Grown where
  refl := List.suffix_rfl
  trans := List.IsSuffix.trans
  visit _ := List.suffix_cons _ _
  report _ := List.suffix_rfl
  put _ _ := List.suffix_rfl
  forget _ := List.suffix_rfl
  restore h := h

theorem grown_evaluate (d : Dispatcher) (e : Expr) (names : List String) :
    Keeps (Grown names) (evaluate d e) := by
  have h := (grown_effect d).keeps_evaluate e (List.Subset.refl _)
  exact h

theorem grown_allows (d : Dispatcher) (parts : List Stmt) : Effect.Allows d Grown parts where
  default _ e _ _ := grown_evaluate d e
  declare _ _ _ _ := List.suffix_rfl

-- A step that keeps what was handed to the passes, so that what is known about the
-- beginning of a sequence of steps stays true until its end.
class Eval.Grows (x : Eval α) : Prop where
  keeps names : Keeps (Grown names) x

namespace Eval.Grows

theorem suffix {x : Eval α} [hx : Grows x] {s t : State} {a : α} (h : x s = .ok a t) :
    s.events <:+ t.events := by
  have hs := hx.keeps [] s
  rwa [after_of_ok h] at hs

instance (a : α) : Grows (pure a : Eval α) :=
  ⟨fun _ => (grown_effect {}).keeps_pure a⟩

instance (x : Eval α) (f : α → Eval β) [hx : Grows x] [hf : ∀ a, Grows (f a)] : Grows (x >>= f) :=
  ⟨fun names => (grown_effect {}).keeps_bind (hx.keeps names) fun a => (hf a).keeps names⟩

instance : Grows (get : Eval State) :=
  ⟨fun _ => (grown_effect {}).keeps_get⟩

instance (node : Node) : Grows (visit d node) :=
  ⟨fun _ => (grown_effect d).keeps_visit node⟩

instance (op : BinaryOp) (left right : Value) (location : Location) :
    Grows (operate op left right location) :=
  ⟨fun _ => (grown_effect {}).keeps_operate op left right location⟩

instance (target : Expr) : Grows (current target) :=
  ⟨fun _ => (grown_effect {}).keeps_current target⟩

instance (target : Expr) (value : Value) : Grows (store target value) := by
  have h := (grown_effect {}).keeps_store value (List.Subset.refl target.root?.toList)
  exact ⟨fun _ => h⟩

instance (names : List String) : Grows (forget names) :=
  ⟨fun _ _ => List.suffix_rfl⟩

instance (x : Eval Unit) [hx : Grows x] : Grows (onBranch x) :=
  ⟨fun names => (grown_effect {}).keeps_onBranch (hx.keeps names)⟩

instance (scope : Scope) (x : Eval α) [hx : Grows x] : Grows (inScope scope x) :=
  ⟨fun names => (grown_effect {}).keeps_inScope (hx.keeps names)⟩

instance (e : Expr) : Grows (evaluate d e) :=
  ⟨grown_evaluate d e⟩

instance (es : List Expr) : Grows (evaluateAll d es) := by
  have h := (grown_effect d).keeps_evaluateAll es (List.Subset.refl _)
  exact ⟨fun _ => h⟩

instance (items : List ArrayItem) : Grows (evaluateItems d items) := by
  have h := (grown_effect d).keeps_evaluateItems items (List.Subset.refl _)
  exact ⟨fun _ => h⟩

instance (scope : Scope) (parameters : List Parameter) :
    Grows (parameterScope d scope parameters) :=
  ⟨fun names => (grown_effect d).keeps_parameterScope scope parameters
    fun e _ => grown_evaluate d e names⟩

instance (s : Stmt) : Grows (execute d s) := by
  have h := (grown_effect d).keeps_execute _ s (grown_allows d _) (List.Subset.refl _)
  exact ⟨fun _ => h⟩

instance (ss : List Stmt) : Grows (executeAll d ss) := by
  have h := (grown_effect d).keeps_executeAll _ ss (grown_allows d _) (List.Subset.refl _)
  exact ⟨fun _ => h⟩

instance (className : String) (methods : List Method) :
    Grows (executeMethods d className methods) :=
  ⟨fun names => (grown_effect d).keeps_executeMethods names className methods (grown_allows d _)
    fun _ _ e _ => grown_evaluate d e⟩

end Eval.Grows

-- Variables that are not among the given ones are bound as before.
def Unassigned (names : List String) (s t : State) : Prop :=
  ∀ name, name ∉ names → t.scope.get? name = s.scope.get? name

theorem unassigned_effect (d : Dispatcher) : Effect d Unassigned where
  refl _ _ := rfl
  trans hst htu name h := (htu name h).trans (hst name h)
  visit _ _ _ := rfl
  report _ _ _ := rfl
  put {names s name} value hmem other h := by
    rw [Entries.get?_put, if_neg]
    rintro rfl
    exact h hmem
  forget hsub name h := by
    rw [Scope.get?_forget, if_neg]
    exact fun hmem => h (hsub hmem)
  restore _ _ _ := rfl

theorem unassigned_allows {parts : List Stmt}
    (h : ∀ part ∈ parts, ∀ e ∈ part.defaults, e.assigned = []) :
    Effect.Allows d Unassigned parts where
  default part e hpart he names :=
    (unassigned_effect d).keeps_evaluate e (by simp [h part hpart e he])
  declare _ _ _ _ _ _ := rfl

-- The constants are those from before.
def Undeclared (_ : List String) (s t : State) : Prop :=
  t.constants = s.constants

theorem undeclared_effect (d : Dispatcher) : Effect d Undeclared where
  refl := rfl
  trans hst htu := htu.trans hst
  visit _ := rfl
  report _ := rfl
  put _ _ := rfl
  forget _ := rfl
  restore h := h

theorem undeclared_evaluate (d : Dispatcher) (e : Expr) (names : List String) :
    Keeps (Undeclared names) (evaluate d e) := by
  have h := (undeclared_effect d).keeps_evaluate e (List.Subset.refl _)
  exact h

theorem undeclared_allows {parts : List Stmt}
    (h : ∀ name e location, Stmt.constDecl name e location ∉ parts) :
    Effect.Allows d Undeclared parts where
  default _ e _ _ := undeclared_evaluate d e
  declare hpart := (h _ _ _ hpart).elim

-- A step that leaves all variables and constants as they are.
structure Eval.Idle (x : Eval α) : Prop where
  scope : Keeps (Unassigned []) x
  constants : Keeps (Undeclared []) x

theorem Eval.idle_evaluate {e : Expr} (h : e.assigned = []) : Idle (evaluate d e) where
  scope := (unassigned_effect d).keeps_evaluate e (by simp [h])
  constants := undeclared_evaluate d e []

theorem Eval.idle_parameterScope (scope : Scope) {parameters : List Parameter}
    (h : ∀ e ∈ parameters.filterMap (·.default), e.assigned = []) :
    Idle (parameterScope d scope parameters) where
  scope := (unassigned_effect d).keeps_parameterScope scope parameters
    fun e he => (idle_evaluate (h e he)).scope
  constants := (undeclared_effect d).keeps_parameterScope scope parameters
    fun e he => (idle_evaluate (h e he)).constants

theorem Eval.idle_inScope {ss : List Stmt} (scope : Scope)
    (hscope : Effect.Allows d Unassigned (blockParts ss))
    (hconstants : Effect.Allows d Undeclared (blockParts ss)) :
    Idle (inScope scope (executeAll d ss)) where
  scope := (unassigned_effect d).keeps_inScope
    ((unassigned_effect d).keeps_executeAll _ ss hscope (List.Subset.refl _))
  constants := (undeclared_effect d).keeps_inScope
    ((undeclared_effect d).keeps_executeAll _ ss hconstants (List.Subset.refl _))

end PhpLint
