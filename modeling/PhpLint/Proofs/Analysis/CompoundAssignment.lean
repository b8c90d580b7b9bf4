import PhpLint.Proofs.Analysis.Frame
import PhpLint.Proofs.Analysis.Journal
import PhpLint.Rule.Basic

namespace PhpLint

open EStateM (after ending)

-- The issue that the analysis reports by itself, as opposed to what the passes find.
def Act.warning? : Act → Option Issue
  | visit _ => none
  | report issue => some issue

def warnings (acts : List Act) : List Issue :=
  acts.filterMap Act.warning?

@[simp] theorem warnings_nil : warnings [] = [] := rfl

@[simp] theorem warnings_append (acts more : List Act) :
    warnings (acts ++ more) = warnings acts ++ warnings more :=
  List.filterMap_append

@[simp] theorem warnings_visit (node : Node) (acts : List Act) :
    warnings (.visit node :: acts) = warnings acts := rfl

@[simp] theorem warnings_hazard (hazard : Option Hazard) (location : Location) :
    warnings (Hazard.acts hazard location) = hazard.toList.map (·.issue location) := by
  cases hazard <;> rfl

-- The warnings that the evaluation of an expression gives one after the other, for every choice
-- of passes and whether or not they are new among the issues.
def Expr.Warns (e : Expr) (s : State) (issues : List Issue) : Prop :=
  ∃ account : Account Value, account.Tells (evaluate · e) s.scope s.constants ∧
    warnings account.acts = issues

namespace Account.Tells

variable {scope scope₁ scope₂ constants constants₁ constants₂ : Scope} {acts more : List Act}
  {name : String} {e left right : Expr} {a b : Value} {fatal : Fatal}

theorem current (place : Location) :
    Tells ⟨.ok ((scope.get? name).getD .unknown), scope, constants, []⟩
      (fun _ => Eval.current (.var name place)) scope constants := by
  rintro d s rfl rfl
  rfl

theorem store (hname : name ≠ "this") (place : Location) (a : Value) :
    Tells ⟨.ok (), scope.put name a, constants, []⟩
      (fun _ => Eval.store (.var name place) a) scope constants := by
  rintro d s rfl rfl
  simp only [Eval.store, if_neg hname]
  rfl

theorem evaluate_var (place : Location) :
    Tells ⟨.ok ((scope.get? name).getD .unknown), scope, constants,
      [.visit (.expr (.var name place) [])]⟩ (evaluate · (.var name place)) scope constants := by
  rintro d s rfl rfl
  simp only [evaluate]
  rfl

theorem evaluate_binary
    (hleft : Tells ⟨.ok a, scope₁, constants₁, acts⟩ (evaluate · left) scope constants)
    (hright : Tells ⟨.ok b, scope₂, constants₂, more⟩ (evaluate · right) scope₁ constants₁)
    (op : BinaryOp) (place symbol : Location) :
    let whole : Expr := .binary op left right place symbol
    let outcome := Value.binary op a b
    Tells ⟨.ok outcome.value, scope₂, constants₂,
      acts ++ (more ++ ([.visit (.expr whole [a, b])] ++ Hazard.acts outcome.hazard place))⟩
      (evaluate · whole) scope constants := by
  intro whole outcome
  simp only [whole, evaluate]
  exact hleft.bind (hright.bind ((visit _).bind (operate op a b place)))

theorem evaluate_binary_error
    (hleft : Tells ⟨.ok a, scope₁, constants₁, acts⟩ (evaluate · left) scope constants)
    (hright : Tells ⟨.error fatal, scope₂, constants₂, more⟩ (evaluate · right) scope₁ constants₁)
    (op : BinaryOp) (place symbol : Location) :
    Tells ⟨.error fatal, scope₂, constants₂, acts ++ more⟩
      (evaluate · (.binary op left right place symbol)) scope constants := by
  simp only [evaluate]
  exact hleft.bind hright.bind_error

theorem evaluate_assign
    (he : Tells ⟨.ok a, scope₁, constants₁, acts⟩ (evaluate · e) scope constants)
    (hname : name ≠ "this") (target place : Location) :
    let whole : Expr := .assign none (.var name target) e place
    Tells ⟨.ok a, scope₁.put name a, constants₁, acts ++ ([.visit (.expr whole [a])] ++ [])⟩
      (evaluate · whole) scope constants := by
  intro whole
  simp only [whole, evaluate, Expr.isAssignable, if_true, evaluateTarget, pure_bind]
  exact he.bind ((visit _).bind ((store hname target a).bind (pure a)))

-- The variable is read after the operand has been evaluated.
theorem evaluate_compound
    (he : Tells ⟨.ok a, scope₁, constants₁, acts⟩ (evaluate · e) scope constants)
    (hname : name ≠ "this") (op : BinaryOp) (target place : Location) :
    let whole : Expr := .assign (some op) (.var name target) e place
    let outcome := Value.binary op ((scope₁.get? name).getD .unknown) a
    Tells ⟨.ok outcome.value, scope₁.put name outcome.value, constants₁,
      acts ++ ([.visit (.expr whole [a])] ++ (Hazard.acts outcome.hazard place ++ []))⟩
      (evaluate · whole) scope constants := by
  intro whole outcome
  simp only [whole, evaluate, Expr.isAssignable, if_true, evaluateTarget, pure_bind]
  exact he.bind ((visit _).bind ((current target).bind ((operate op _ a place).bind
    ((store hname target _).bind (pure _)))))

theorem evaluate_assign_error
    (he : Tells ⟨.error fatal, scope₁, constants₁, acts⟩ (evaluate · e) scope constants)
    (op : Option BinaryOp) (target place : Location) :
    Tells ⟨.error fatal, scope₁, constants₁, acts⟩
      (evaluate · (.assign op (.var name target) e place)) scope constants := by
  simp only [evaluate, Expr.isAssignable, if_true, evaluateTarget, pure_bind]
  exact he.bind_error

-- Accounts that differ in what is done on the way only.
theorem end_alike {outcome : Except Fatal Value}
    (hleft : Tells ⟨outcome, scope₁, constants₁, acts⟩ (evaluate · left) scope constants)
    (hright : Tells ⟨outcome, scope₁, constants₁, more⟩ (evaluate · right) scope constants)
    (d : Dispatcher) {s : State} (hs : s.scope = scope) (hc : s.constants = constants) :
    ending (evaluate d left) s = ending (evaluate d right) s ∧
      (after (evaluate d left) s).scope = (after (evaluate d right) s).scope ∧
      (after (evaluate d left) s).constants = (after (evaluate d right) s).constants := by
  rw [hleft.ending_eq hs hc, hright.ending_eq hs hc, hleft.after_eq hs hc, hright.after_eq hs hc]
  exact ⟨rfl, rfl, rfl⟩

-- What an expression does not assign is bound afterwards as before.
theorem get?_eq {account : Account Value} (h : account.Tells (evaluate · e) scope constants)
    (hname : name ∉ e.assigned) : account.scope.get? name = scope.get? name := by
  have hkeeps := (unassigned_effect {}).keeps_evaluate e (List.Subset.refl _) { scope, constants }
  have hbound := hkeeps name hname
  rwa [h.after_eq rfl rfl] at hbound

end Account.Tells

-- A compound assignment does what its expansion does: it ends in the same way with the same
-- variables and constants, and the operation raises the same hazard on top of those of the
-- operand. The variable is read at different times, but the operand does not assign it.
theorem compound_assignment_expands (d : Dispatcher) (s : State) (op : BinaryOp) {name : String}
    {e : Expr} (hthis : name ≠ "this") (hname : name ∉ e.assigned)
    (target place target' read inner symbol place' : Location) :
    let compound : Expr := .assign (some op) (.var name target) e place
    let expansion : Expr :=
      .assign none (.var name target') (.binary op (.var name read) e inner symbol) place'
    let hazard := (ending (evaluate d e) s).toOption.bind fun value =>
      (Value.binary op (s.valueOf name) value).hazard
    (ending (evaluate d compound) s = ending (evaluate d expansion) s ∧
      (after (evaluate d compound) s).scope = (after (evaluate d expansion) s).scope ∧
      (after (evaluate d compound) s).constants = (after (evaluate d expansion) s).constants) ∧
    ∃ issues, e.Warns s issues ∧
      compound.Warns s (issues ++ hazard.toList.map (·.issue place)) ∧
      expansion.Warns s (issues ++ hazard.toList.map (·.issue inner)) := by
  intro compound expansion hazard
  obtain ⟨⟨outcome, scope, constants, acts⟩, haccount⟩ :=
    Accounted.evaluate e (fun _ => id) s.scope s.constants
  have he := haccount.tells
  have hread : Account.Tells _ (evaluate · (.var name read)) s.scope s.constants :=
    .evaluate_var read
  have hhazard : hazard = outcome.toOption.bind fun value =>
      (Value.binary op (s.valueOf name) value).hazard := by
    simp only [hazard, he.ending_eq rfl rfl]
  cases outcome with
  | error fatal =>
      have hcompound : Account.Tells _ (evaluate · compound) _ _ :=
        he.evaluate_assign_error (some op) target place
      have hexpansion : Account.Tells _ (evaluate · expansion) _ _ :=
        (hread.evaluate_binary_error he op inner symbol).evaluate_assign_error none target' place'
      refine ⟨hcompound.end_alike hexpansion d rfl rfl, warnings acts, ⟨_, he, rfl⟩,
        ⟨_, hcompound, ?_⟩, ⟨_, hexpansion, ?_⟩⟩
      · simp [hhazard, Except.toOption]
      · simp [hhazard, Except.toOption]
  | ok value =>
      have hbound : scope.get? name = s.scope.get? name := he.get?_eq hname
      have hcompound : Account.Tells _ (evaluate · compound) _ _ :=
        he.evaluate_compound hthis op target place
      rw [hbound] at hcompound
      have hexpansion : Account.Tells _ (evaluate · expansion) _ _ :=
        (hread.evaluate_binary he op inner symbol).evaluate_assign hthis target' place'
      refine ⟨hcompound.end_alike hexpansion d rfl rfl, warnings acts, ⟨_, he, rfl⟩,
        ⟨_, hcompound, ?_⟩, ⟨_, hexpansion, ?_⟩⟩
      · simp [hhazard, Except.toOption, State.valueOf]
      · simp [hhazard, Except.toOption, State.valueOf]

-- $x /= ($y = 0) and $x = $x / ($y = 0): the division is at different places.
theorem compound_assignment_expands_division :
    let place (start : Nat) : Location := ⟨"", start, start + 1, 1, 1⟩
    let e : Expr := .assign none (.var "y" (place 1)) (.literal (.int 0) (place 2)) (place 1)
    let compound : Expr := .assign (some .divide) (.var "x" (place 0)) e (place 0)
    let expansion : Expr := .assign none (.var "x" (place 3))
      (.binary .divide (.var "x" (place 4)) e (place 4) (place 5)) (place 3)
    let d := Dispatcher.ofPasses ((Rule.all []).map Rule.pass)
    let s : State := { scope := [("x", .int 6)] }
    "x" ≠ "this" ∧ "x" ∉ e.assigned ∧
    ending (evaluate d compound) s = ending (evaluate d expansion) s ∧
    (after (evaluate d compound) s).scope = (after (evaluate d expansion) s).scope ∧
    (after (evaluate d compound) s).issues = [Hazard.divisionByZero.issue (place 0)] ∧
    (after (evaluate d expansion) s).issues = [Hazard.divisionByZero.issue (place 4)] := by
  intro place e compound expansion d s
  have hname : "x" ∉ e.assigned := by decide
  obtain ⟨⟨hending, hscope, -⟩, -⟩ := compound_assignment_expands d s .divide (by decide) hname
    (place 0) (place 0) (place 3) (place 4) (place 4) (place 5) (place 3)
  exact ⟨by decide, hname, hending, hscope, by decide +kernel, by decide +kernel⟩

end PhpLint
