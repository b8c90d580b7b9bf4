import PhpLint.Proofs.Analysis.Frame
import PhpLint.Proofs.Analysis.OwnScope

namespace PhpLint

open Eval
open EStateM (after bind_eq_ok_iff)

variable {d : Dispatcher}

-- Nothing is assigned anywhere in the expression.
def Expr.HasNoAssignment (e : Expr) : Prop :=
  ∀ part ∈ e.parts, part.isAssignment = false

instance (e : Expr) : Decidable e.HasNoAssignment :=
  inferInstanceAs (Decidable (∀ part ∈ e.parts, _))

theorem Expr.HasNoAssignment.of_subset {e part : Expr} (h : e.HasNoAssignment)
    (hsub : part.parts ⊆ e.parts) : part.HasNoAssignment :=
  fun inner hinner => h inner (hsub hinner)

-- Only an assignment has a target, so without one no variable is assigned.
mutual
theorem Expr.assigned_eq_nil : ∀ e : Expr, e.HasNoAssignment → e.assigned = []
  | .literal .., _ | .var .., _ | .constant .., _ | .interpolated .., _ | .invalid .., _ => by
      rw [Expr.assigned]
  | .assign op target value location, h => by
      have hself := h (.assign op target value location) (by simp [Expr.parts])
      cases hself
  | .binary _ left right _ _, h | .element left right _, h => by
      have hleft := left.assigned_eq_nil (h.of_subset (by simp [Expr.parts]))
      have hright := right.assigned_eq_nil (h.of_subset (by simp [Expr.parts]))
      rw [Expr.assigned, hleft, hright, List.append_nil]
  | .unary _ operand _ _, h | .cast _ operand _, h | .property operand _ _, h
  | .slot operand _, h => by
      rw [Expr.assigned]
      exact operand.assigned_eq_nil (h.of_subset (by simp [Expr.parts]))
  | .array items _ _, h => by
      rw [Expr.assigned]
      exact itemsAssigned_eq_nil items fun part hpart => h part (by simp [Expr.parts, hpart])
  | .call _ arguments _, h | .staticCall _ _ arguments _, h | .new _ arguments _, h => by
      rw [Expr.assigned]
      exact listAssigned_eq_nil arguments fun part hpart => h part (by simp [Expr.parts, hpart])
  | .methodCall object _ arguments _, h => by
      have hobject := object.assigned_eq_nil (h.of_subset (by simp [Expr.parts]))
      have harguments := listAssigned_eq_nil arguments fun part hpart =>
        h part (by simp [Expr.parts, hpart])
      rw [Expr.assigned, hobject, harguments, List.append_nil]

theorem listAssigned_eq_nil : ∀ es : List Expr,
    (∀ part ∈ listParts es, part.isAssignment = false) → listAssigned es = []
  | [], _ => by rw [listAssigned]
  | e :: es, h => by
      rw [listParts, List.forall_mem_append] at h
      rw [listAssigned, e.assigned_eq_nil h.1, listAssigned_eq_nil es h.2, List.append_nil]

theorem itemsAssigned_eq_nil : ∀ items : List ArrayItem,
    (∀ part ∈ itemParts items, part.isAssignment = false) → itemsAssigned items = []
  | [], _ => by rw [itemsAssigned]
  | .plain value :: items, h => by
      rw [itemParts, List.forall_mem_append] at h
      rw [itemsAssigned, value.assigned_eq_nil h.1, itemsAssigned_eq_nil items h.2, List.append_nil]
  | .keyed key value :: items, h => by
      rw [itemParts, List.forall_mem_append, List.forall_mem_append] at h
      rw [itemsAssigned, key.assigned_eq_nil h.1.1, value.assigned_eq_nil h.1.2,
        itemsAssigned_eq_nil items h.2, List.append_nil, List.append_nil]
end

-- The condition and the branches of a conditional.
def Stmt.conditional? : Stmt → Option (Expr × List Stmt)
  | .ifThen condition thenBranch _ => some (condition, [thenBranch])
  | .ifElse condition thenBranch elseBranch _ => some (condition, [thenBranch, elseBranch])
  | _ => none

theorem scope_of_onBranch {x : Eval Unit} {s t : State} (h : onBranch x s = .ok () t) :
    t.scope = s.scope := by
  rw [onBranch_apply] at h
  cases hx : x s with
  | ok _ u =>
      rw [hx] at h
      cases h
      rfl
  | error fatal u =>
      rw [hx] at h
      cases h

-- Each branch gives the scope back that it started from, and then what any of them may
-- assign is forgotten.
theorem scope_of_conditional {statement : Stmt} {condition : Expr} {branches : List Stmt}
    {s u : State} (hconditional : statement.conditional? = some (condition, branches))
    (h : execute d statement s = .ok () u) :
    ∃ value t, evaluate d condition s = .ok value t ∧
      u.scope = t.scope.forget (branches.flatMap Stmt.assigned) := by
  cases statement with
  | ifThen condition' thenBranch location =>
      cases hconditional
      rw [execute] at h
      obtain ⟨value, t, hcondition, h⟩ := bind_eq_ok_iff.mp h
      obtain ⟨_, t₁, hvisit, h⟩ := bind_eq_ok_iff.mp h
      obtain ⟨_, t₂, hthen, h⟩ := bind_eq_ok_iff.mp h
      have hscope := scope_of_onBranch hthen
      cases h
      cases hvisit
      refine ⟨value, t, hcondition, ?_⟩
      show t₂.scope.forget thenBranch.assigned = _
      rw [hscope, List.flatMap_singleton]
      rfl
  | ifElse condition' thenBranch elseBranch location =>
      cases hconditional
      rw [execute] at h
      obtain ⟨value, t, hcondition, h⟩ := bind_eq_ok_iff.mp h
      obtain ⟨_, t₁, hvisit, h⟩ := bind_eq_ok_iff.mp h
      obtain ⟨_, t₂, hthen, h⟩ := bind_eq_ok_iff.mp h
      obtain ⟨_, t₃, helse, h⟩ := bind_eq_ok_iff.mp h
      have hscope := (scope_of_onBranch helse).trans (scope_of_onBranch hthen)
      cases h
      cases hvisit
      refine ⟨value, t, hcondition, ?_⟩
      show t₃.scope.forget (thenBranch.assigned ++ elseBranch.assigned) = _
      rw [hscope, List.flatMap_cons, List.flatMap_singleton]
      rfl
  | _ => cases hconditional

-- What an expression or a statement is said to assign is all that it can assign, also if it
-- ends fatally. After a conditional, whatever its branches assign is bound to nothing that is
-- known, if it is bound at all, and the rest is as the condition has left it.
theorem assigned_variables_complete (d : Dispatcher) (s : State) :
    (∀ (e : Expr) (name : String), name ∉ e.assigned →
      (after (evaluate d e) s).scope.get? name = s.scope.get? name) ∧
    (∀ statement : Stmt, (∀ part ∈ statement.parts, ∀ e ∈ part.defaults, e.HasNoAssignment) →
      ∀ name, name ∉ statement.assigned →
        (after (execute d statement) s).scope.get? name = s.scope.get? name) ∧
    ∀ (statement : Stmt) (condition : Expr) (branches : List Stmt) (u : State),
      statement.conditional? = some (condition, branches) →
      execute d statement s = .ok () u →
      ∃ value t, evaluate d condition s = .ok value t ∧
        (∀ branch ∈ branches, ∀ name ∈ branch.assigned,
          u.scope.get? name = (t.scope.get? name).map fun _ => Value.unknown) ∧
        ∀ name, (∀ branch ∈ branches, name ∉ branch.assigned) →
          u.scope.get? name = t.scope.get? name := by
  refine ⟨fun e name hname => ?_, fun statement hdefaults name hname => ?_, ?_⟩
  · exact (unassigned_effect d).keeps_evaluate e (List.Subset.refl _) s name hname
  · have hallows : Effect.Allows d Unassigned statement.parts :=
      unassigned_allows fun part hpart e he => e.assigned_eq_nil (hdefaults part hpart e he)
    have hkeeps := (unassigned_effect d).keeps_execute _ statement hallows (List.Subset.refl _)
    exact hkeeps s name hname
  · intro statement condition branches u hconditional h
    obtain ⟨value, t, hcondition, hscope⟩ := scope_of_conditional hconditional h
    refine ⟨value, t, hcondition, fun branch hbranch name hname => ?_, fun name hname => ?_⟩
    · have hmem : name ∈ branches.flatMap Stmt.assigned :=
        List.mem_flatMap.mpr ⟨branch, hbranch, hname⟩
      rw [hscope, Scope.get?_forget, if_pos hmem]
    · have hmem : name ∉ branches.flatMap Stmt.assigned := by
        intro hassigned
        obtain ⟨branch, hbranch, hin⟩ := List.mem_flatMap.mp hassigned
        exact hname branch hbranch hin
      rw [hscope, Scope.get?_forget, if_neg hmem]

-- if ($c) { $a[] = 1; function f($y = E_ALL) { $x = $y; } } else $b = $x;
def branchingStmt (l : Location) : Stmt :=
  .ifElse (.var "c" l)
    (.block ⟨[.expr (.assign none (.slot (.var "a" l) l) (.literal (.int 1) l) l) l,
      .functionDecl ⟨⟨"f", l⟩, [⟨"y", some (.constant "E_ALL" l), l⟩], none⟩
        ⟨[.expr (.assign none (.var "x" l) (.var "y" l) l) l], l⟩ l], l⟩)
    (.expr (.assign none (.var "b" l) (.var "x" l) l) l) l

-- The array that is written to is bound to something unknown, what was not bound stays so,
-- and the function does not touch the variable of the same name.
theorem assigned_variables_complete_branching :
    let d := Dispatcher.ofPasses []
    let statement := branchingStmt default
    let s : State := { scope := [("a", .array []), ("x", .int 7)] }
    (∀ part ∈ statement.parts, ∀ e ∈ part.defaults, e.HasNoAssignment) ∧
    "x" ∉ statement.assigned ∧
    (after (execute d statement) s).scope.get? "x" = s.scope.get? "x" ∧
    ∃ u, execute d statement s = .ok () u ∧ u.scope.get? "a" = some .unknown ∧
      u.scope.get? "b" = none := by
  intro d statement s
  obtain ⟨-, hframe, hbranches⟩ := assigned_variables_complete d s
  have hdefaults : ∀ part ∈ statement.parts, ∀ e ∈ part.defaults, e.HasNoAssignment := by decide
  have hname : "x" ∉ statement.assigned := by decide
  refine ⟨hdefaults, hname, hframe statement hdefaults "x" hname, _, rfl, ?_⟩
  obtain ⟨value, t, hcondition, hforgotten, -⟩ := hbranches statement _ _ _ rfl rfl
  cases hcondition
  exact ⟨hforgotten _ (.head _) "a" (by decide), hforgotten _ (.tail _ (.head _)) "b" (by decide)⟩

end PhpLint
