import PhpLint.Proofs.Analysis.Frame
import PhpLint.Proofs.Semantics.Run

namespace PhpLint

open Eval
open EStateM (after_of_ok bind_eq_ok_iff)

variable {d : Dispatcher}

-- What a branch would leave of the bindings from before it: where it is open whether the
-- operand is executed, the variables it assigns have no content or are bound as before, and
-- where it is left out all of them are.
structure BoundLikeBranch (op : BinaryOp) (left : Value) (assigned : List String)
    (before after : State) : Prop where
  undecided : left.truthy? = none → ∀ name ∈ assigned,
    (∀ v, after.scope.get? name = some v → v.isKnown = false) ∨
      after.scope.get? name = before.scope.get? name
  skipped b : left.truthy?.bind op.decided? = some b →
    ∀ name, after.scope.get? name = before.scope.get? name

section Branches

variable {op : BinaryOp} {left : Value} {assigned : List String} {before after other : State}

theorem BoundLikeBranch.congr (h : BoundLikeBranch op left assigned before after)
    (hscope : other.scope = after.scope) : BoundLikeBranch op left assigned before other := by
  constructor
  · rw [hscope]
    exact h.undecided
  · rw [hscope]
    exact h.skipped

theorem boundLikeBranch_congr (hscope : other.scope = after.scope) :
    BoundLikeBranch op left assigned before other ↔ BoundLikeBranch op left assigned before after :=
  ⟨fun h => h.congr hscope.symm, fun h => h.congr hscope⟩

-- Names that are not assigned are bound as before in any case.
theorem boundLikeBranch_iff (h : Unassigned assigned before after) :
    BoundLikeBranch op left assigned before after ↔ ∀ name ∈ assigned,
      (left.truthy? = none → (∀ v, after.scope.get? name = some v → v.isKnown = false) ∨
        after.scope.get? name = before.scope.get? name) ∧
      ∀ b, left.truthy?.bind op.decided? = some b →
        after.scope.get? name = before.scope.get? name := by
  constructor
  · intro hbound name hname
    exact ⟨fun hopen => hbound.undecided hopen name hname, fun b hb => hbound.skipped b hb name⟩
  · intro hnames
    refine ⟨fun hopen name hname => (hnames name hname).1 hopen, fun b hb name => ?_⟩
    by_cases hname : name ∈ assigned
    · exact (hnames name hname).2 b hb
    · exact h name hname

end Branches

-- Both operands are evaluated, one after the other, whatever the left one decides.
theorem evaluate_binary_ok {op : BinaryOp} {left right : Expr} {location opLocation : Location}
    {s u : State} {v : Value}
    (h : evaluate d (.binary op left right location opLocation) s = .ok v u) :
    ∃ a t b w, evaluate d left s = .ok a t ∧ evaluate d right t = .ok b w ∧
      u.scope = w.scope := by
  rw [evaluate] at h
  obtain ⟨a, t, hleft, h⟩ := bind_eq_ok_iff.mp h
  obtain ⟨b, w, hright, h⟩ := bind_eq_ok_iff.mp h
  obtain ⟨_, w', hvisit, h⟩ := bind_eq_ok_iff.mp h
  rw [operate_apply] at h
  cases hvisit
  cases h
  refine ⟨a, t, b, w, hleft, hright, ?_⟩
  cases (Value.binary op a b).hazard <;> rfl

-- The right operand is no branch to the analysis. So the bindings after the expression
-- are those of a branch exactly if the operand by itself leaves those of the names so that
-- it assigns, in particular if it assigns nothing.
theorem conditional_operand_bound_like_branch_iff {op : BinaryOp} {left right : Expr}
    {location opLocation : Location} {s u : State} {v : Value}
    (h : evaluate d (.binary op left right location opLocation) s = .ok v u) :
    ∃ a t b w, evaluate d left s = .ok a t ∧ evaluate d right t = .ok b w ∧
      (BoundLikeBranch op a right.assigned t u ↔ ∀ name ∈ right.assigned,
        (a.truthy? = none → (∀ v, w.scope.get? name = some v → v.isKnown = false) ∨
          w.scope.get? name = t.scope.get? name) ∧
        ∀ b, a.truthy?.bind op.decided? = some b →
          w.scope.get? name = t.scope.get? name) ∧
      (right.assigned = [] → BoundLikeBranch op a right.assigned t u) ∧
      u.scope = w.scope ∧
      ∀ name, u.scope.get? name = if name ∈ right.assigned then w.scope.get? name
        else t.scope.get? name := by
  obtain ⟨a, t, b, w, hleft, hright, hscope⟩ := evaluate_binary_ok h
  have hsame := (unassigned_effect d).keeps_evaluate right (List.Subset.refl _) t
  rw [after_of_ok hright] at hsame
  refine ⟨a, t, b, w, hleft, hright, ?_, fun hnone => ?_, hscope, fun name => ?_⟩
  · rw [boundLikeBranch_congr hscope]
    exact boundLikeBranch_iff hsame
  · rw [hnone] at hsame ⊢
    exact (boundLikeBranch_congr hscope).mpr ((boundLikeBranch_iff hsame).mpr (by simp))
  · rw [hscope]
    split
    · rfl
    · next hname => exact hsame name hname

-- An operand that copies a variable that is not bound.
theorem conditional_operand_of_unbound :
    let here : Location := ⟨"", 0, 1, 1, 1⟩
    let left : Expr := .var "a" here
    let right : Expr := .assign none (.var "b" here) (.var "c" here) here
    ∃ v u, evaluate {} (.binary .booleanAnd left right here here) {} = .ok v u ∧
      ∃ a t b w, evaluate {} left {} = .ok a t ∧ evaluate {} right t = .ok b w ∧
        (BoundLikeBranch .booleanAnd a right.assigned t u ↔ ∀ name ∈ right.assigned,
          (a.truthy? = none → (∀ v, w.scope.get? name = some v → v.isKnown = false) ∨
            w.scope.get? name = t.scope.get? name) ∧
          ∀ b, a.truthy?.bind BinaryOp.booleanAnd.decided? = some b →
            w.scope.get? name = t.scope.get? name) ∧
        (right.assigned = [] → BoundLikeBranch .booleanAnd a right.assigned t u) ∧
        u.scope = w.scope ∧
        ∀ name, u.scope.get? name = if name ∈ right.assigned then w.scope.get? name
          else t.scope.get? name :=
  ⟨_, _, rfl, conditional_operand_bound_like_branch_iff rfl⟩

-- With a constant in its place the variable is known afterwards, even if the operand is
-- never executed.
theorem conditional_operand_leaks :
    let here : Location := ⟨"", 0, 1, 1, 1⟩
    let right : Expr := .assign none (.var "b" here) (.literal (.int 1) here) here
    ∀ left ∈ [Expr.literal (.bool false) here, .var "a" here],
      ∃ v u a t, evaluate {} (.binary .booleanAnd left right here here) {} = .ok v u ∧
        evaluate {} left {} = .ok a t ∧
        ¬ BoundLikeBranch .booleanAnd a right.assigned t u := by
  intro here right left hleft
  simp only [List.mem_cons, List.not_mem_nil, or_false] at hleft
  rcases hleft with rfl | rfl
  · refine ⟨_, _, _, _, rfl, rfl, fun h => ?_⟩
    cases h.skipped false rfl "b"
  · refine ⟨_, _, _, _, rfl, rfl, fun h => ?_⟩
    rcases h.undecided rfl "b" (by decide) with hopen | hsame
    · cases hopen (.int 1) rfl
    · cases hsame

end PhpLint
