import PhpLint.Proofs.Analysis.Assignments
import PhpLint.Proofs.Analysis.Findings

namespace PhpLint

open Eval (fault?)
open EStateM (after ending)

namespace Issues

theorem reportAll_eq_self {issues : Issues} {findings : List Issue}
    (h : ∀ issue ∈ findings, ∃ other ∈ issues, issue.repeats other) :
    issues.reportAll findings = issues := by
  induction findings with
  | nil => rfl
  | cons issue findings ih =>
      obtain ⟨hissue, hfindings⟩ := List.forall_mem_cons.mp h
      have hreport : issues.report issue = issues := by
        rw [report, if_neg]
        simpa [isNew] using hissue
      show (issues.report issue).reportAll findings = issues
      rw [hreport, ih hfindings]

-- What was found once is not recorded again.
theorem reportAll_reportAll (issues : Issues) (findings : List Issue) :
    (issues.reportAll findings).reportAll findings = issues.reportAll findings :=
  reportAll_eq_self fun _ => exists_repeats_reportAll

end Issues

theorem Scope.forget_nil (scope : Scope) : scope.forget [] = scope := by
  simp [Scope.forget]

-- The scope is the one from before, unless there are variables that may be assigned.
def Untouched (names : List String) (s t : State) : Prop :=
  names = [] → t.scope = s.scope

theorem untouched_effect (d : Dispatcher) : Effect d Untouched where
  refl _ := rfl
  trans hst htu h := (htu h).trans (hst h)
  visit _ _ := rfl
  report _ _ := rfl
  put _ hmem h := by
    subst h
    cases hmem
  forget hsub h := by
    subst h
    obtain rfl := List.eq_nil_of_subset_nil hsub
    exact Scope.forget_nil _
  restore _ _ := rfl

theorem Expr.HasNoAssignment.scope_eq {e : Expr} (h : e.HasNoAssignment) (d : Dispatcher)
    (s : State) : (after (evaluate d e) s).scope = s.scope := by
  have hkeeps := (untouched_effect d).keeps_evaluate e (List.Subset.refl _)
  exact hkeeps s (e.assigned_eq_nil h)

-- An expression without assignments leaves variables and constants as they are. Evaluated once
-- more it ends in the same way, and whatever is found has been reported before.
theorem reevaluation_changes_nothing (d : Dispatcher) (s : State) {e : Expr}
    (h : e.HasNoAssignment) :
    let t := after (evaluate d e) s
    let u := after (evaluate d e) t
    t.scope = s.scope ∧ t.constants = s.constants ∧
      ending (evaluate d e) t = ending (evaluate d e) s ∧ u.issues = t.issues := by
  intro t u
  have hscope : t.scope = s.scope := h.scope_eq d s
  have hconstants : t.constants = s.constants := undeclared_evaluate d e [] s
  refine ⟨hscope, hconstants, ?_⟩
  -- One account tells of both evaluations, since the bindings are the same.
  obtain ⟨account, haccount⟩ := Accounted.evaluate e (fun _ => id) s.scope s.constants
  have hfirst : t.issues = s.issues.reportAll (account.acts.flatMap d.findings) :=
    d.issues_after haccount.tells rfl rfl
  have hsecond : u.issues = t.issues.reportAll (account.acts.flatMap d.findings) :=
    d.issues_after haccount.tells hscope hconstants
  constructor
  · rw [haccount.tells.ending_eq rfl rfl, haccount.tells.ending_eq hscope hconstants]
  · rw [hsecond, hfirst, Issues.reportAll_reportAll]

-- sizeof(array(1 / $n), $a[]): a hazard and the finding of a rule in front of the fatal end.
theorem reevaluation_changes_nothing_fatal :
    let place (start : Nat) : Location := ⟨"", start, start + 1, 1, 1⟩
    let division : Expr := .binary .divide (.literal (.int 1) (place 2)) (.var "n" (place 3))
      (place 2) (place 3)
    let e : Expr := .call ⟨"sizeof", place 0⟩
      [.array [.plain division] .long (place 1), .slot (.var "a" (place 4)) (place 4)] (place 0)
    let d := Dispatcher.ofPasses ((Rule.all []).map Rule.pass)
    let s : State := { scope := [("n", .int 0)] }
    let t := after (evaluate d e) s
    e.HasNoAssignment ∧
    t.issues.map (fun issue => (issue.code, issue.location)) =
      [("division.zero", place 2), ("array.short-syntax", place 1)] ∧
    fault? (evaluate d e) s = some ⟨.readsSlot, place 4⟩ ∧ t.scope = s.scope ∧
    ending (evaluate d e) t = ending (evaluate d e) s ∧
    (after (evaluate d e) t).issues = t.issues := by
  intro place division e d s t
  have hfree : e.HasNoAssignment := by decide
  obtain ⟨hscope, -, hending, hissues⟩ := reevaluation_changes_nothing d s hfree
  exact ⟨hfree, by decide +kernel, by decide +kernel, hscope, hending, hissues⟩

end PhpLint
