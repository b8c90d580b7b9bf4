import PhpLint.Analysis.Source
import PhpLint.Proofs.Analysis.Dispatching
import PhpLint.Proofs.Analysis.Fatality
import PhpLint.Proofs.Analysis.Subjects

namespace PhpLint

theorem Issue.repeats_iff {a b : Issue} :
    a.repeats b ↔ a.code = b.code ∧ a.location = b.location := by
  simp [Issue.repeats]

namespace Issues

-- Findings are reported one after the other.
def reportAll (issues : Issues) (findings : List Issue) : Issues :=
  findings.foldl report issues

theorem reportAll_append (issues : Issues) (findings more : List Issue) :
    issues.reportAll (findings ++ more) = (issues.reportAll findings).reportAll more :=
  List.foldl_append

theorem prefix_report (issues : Issues) (issue : Issue) : issues <+: issues.report issue := by
  unfold report
  split
  · exact List.prefix_append _ _
  · exact List.prefix_rfl

theorem prefix_reportAll (issues : Issues) (findings : List Issue) :
    issues <+: issues.reportAll findings := by
  induction findings generalizing issues with
  | nil => exact List.prefix_rfl
  | cons issue findings ih => exact (prefix_report issues issue).trans (ih _)

theorem mem_of_mem_reportAll {issues : Issues} {findings : List Issue} {issue : Issue}
    (h : issue ∈ issues.reportAll findings) : issue ∈ issues ∨ issue ∈ findings := by
  induction findings generalizing issues with
  | nil => exact .inl h
  | cons first findings ih =>
      rcases ih h with hreport | hmem
      · unfold report at hreport
        split at hreport
        · rcases List.mem_append.mp hreport with hold | hfirst
          · exact .inl hold
          · exact .inr (by simp_all)
        · exact .inl hreport
      · exact .inr (List.mem_cons_of_mem _ hmem)

theorem exists_repeats_report (issues : Issues) (issue : Issue) :
    ∃ other ∈ issues.report issue, issue.repeats other := by
  unfold report
  split
  · exact ⟨issue, by simp, Issue.repeats_iff.mpr ⟨rfl, rfl⟩⟩
  · next hold => simpa [isNew] using hold

-- What is found is reported, if not by this finding then by an earlier one.
theorem exists_repeats_reportAll {issues : Issues} {findings : List Issue} {issue : Issue}
    (h : issue ∈ findings) : ∃ other ∈ issues.reportAll findings, issue.repeats other := by
  induction findings generalizing issues with
  | nil => simp at h
  | cons first findings ih =>
      rcases List.mem_cons.mp h with rfl | hmem
      · obtain ⟨other, hother, hrepeats⟩ := exists_repeats_report issues issue
        exact ⟨other, (prefix_reportAll _ findings).subset hother, hrepeats⟩
      · exact ih hmem

section Filter

-- A choice that does not tell findings apart that repeat one another.
variable {p : Issue → Bool} (hp : ∀ a b : Issue, a.repeats b → p a = p b)

include hp

theorem filter_report (issues : Issues) (issue : Issue) :
    (issues.report issue).filter p =
      if p issue then Issues.report (issues.filter p) issue else issues.filter p := by
  by_cases hissue : p issue
  · have hnew : isNew (issues.filter p) issue = isNew issues issue := by
      simp only [isNew, List.any_filter]
      congr 2
      funext other
      cases hrepeats : issue.repeats other with
      | false => simp
      | true => simp [← hp issue other hrepeats, hissue]
    simp only [report, hnew, hissue, if_true]
    split <;> simp [hissue]
  · unfold report
    split <;> simp [hissue]

theorem filter_reportAll (issues : Issues) (findings : List Issue) :
    (issues.reportAll findings).filter p =
      Issues.reportAll (issues.filter p) (findings.filter p) := by
  induction findings generalizing issues with
  | nil => rfl
  | cons issue findings ih =>
      have hstep := ih (issues.report issue)
      rw [filter_report hp] at hstep
      by_cases hissue : p issue
      · simpa [reportAll, hissue] using hstep
      · simpa [reportAll, hissue] using hstep

end Filter

end Issues

namespace Dispatcher

theorem issues_run (pass : Pass) (node : Node) (issues : Issues) :
    (pass.run node issues).2 = issues.reportAll (pass.inspect node) := by
  have hfold (findings : List Issue) (reported : Bool) (issues : Issues) :
      (findings.foldl (fun state issue =>
        (state.1 || Issues.isNew state.2 issue, Issues.report state.2 issue))
        (reported, issues)).2 = issues.reportAll findings := by
    induction findings generalizing reported issues with
    | nil => rfl
    | cons issue findings ih => exact ih _ _
  exact hfold _ _ _

theorem set_same {d : Dispatcher} {position : Nat} {pass : Pass}
    (h : d.passes[position]? = some pass) :
    { d with passes := d.passes.set position pass } = d := by
  obtain ⟨hlt, rfl⟩ := List.getElem?_eq_some_iff.mp h
  rw [List.set_getElem_self]

-- The passes at the positions, up to the first one that is outside.
def reached (passes : List Pass) : List Nat → List Pass
  | [] => []
  | position :: rest =>
    match passes[position]? with
    | none => []
    | some pass => pass :: reached passes rest

-- The passes that run on nodes of the kind.
def served (d : Dispatcher) (kind : NodeKind) : List Pass :=
  reached d.passes ((d.routes.get? kind).getD [])

-- Passes of the analysis stay as they are, so the dispatcher does.
theorem dispatched_runAt (node : Node) (ps : List Nat) (d : Dispatcher) (issues : Issues) :
    (runAt node ps d issues).context =
        issues.reportAll ((reached d.passes ps).flatMap (·.inspect node)) ∧
      (runAt node ps d issues).dispatcher = d := by
  induction ps generalizing issues with
  | nil => exact ⟨rfl, rfl⟩
  | cons p ps ih =>
      rw [runAt, reached]
      cases hpass : d.passes[p]? with
      | none => exact ⟨rfl, rfl⟩
      | some pass =>
          have hsame : { d with passes := d.passes.set p (Handler.run pass node issues).2.1 } = d :=
            set_same hpass
          simp only [hsame, List.flatMap_cons, Issues.reportAll_append, ← issues_run]
          exact ih _

theorem dispatched_dispatch (d : Dispatcher) (node : Node) (issues : Issues) :
    (d.dispatch node issues).context =
        issues.reportAll ((d.served node.kind).flatMap (·.inspect node)) ∧
      (d.dispatch node issues).dispatcher = d := by
  rw [dispatch, served]
  cases d.routes.get? node.kind with
  | none => exact ⟨rfl, rfl⟩
  | some ps => exact dispatched_runAt node ps d issues

-- What is found when the analysis does something.
def findings (d : Dispatcher) : Act → List Issue
  | .visit node => (d.served node.kind).flatMap (·.inspect node)
  | .report issue => [issue]

theorem issues_performAll (d : Dispatcher) (s : State) (acts : List Act) :
    (s.performAll d acts).issues = s.issues.reportAll (acts.flatMap d.findings) := by
  induction acts generalizing s with
  | nil => rfl
  | cons act acts ih =>
      have hstep : (s.perform d act).issues = s.issues.reportAll (d.findings act) := by
        cases act with
        | visit node => exact (d.dispatched_dispatch node s.issues).1
        | report issue => rfl
      rw [List.flatMap_cons, Issues.reportAll_append, ← hstep]
      exact ih (s.perform d act)

theorem issues_after {α : Type} {account : Account α} {x : Dispatcher → Eval α}
    {scope constants : Scope} (h : account.Tells x scope constants) (d : Dispatcher) {s : State}
    (hs : s.scope = scope) (hc : s.constants = constants) :
    (EStateM.after (x d) s).issues = s.issues.reportAll (account.acts.flatMap d.findings) := by
  rw [h.after_eq hs hc, ← issues_performAll]

-- What was reported since a checkpoint comes after what was there before.
theorem rollback_performAll (d : Dispatcher) (s : State) (acts : List Act) :
    Issues.rollback (s.performAll d acts).issues s.issues.length = s.issues := by
  rw [issues_performAll]
  exact (List.prefix_iff_eq_take.mp (Issues.prefix_reportAll _ _)).symm

theorem passes_ofPasses (passes : List Pass) : (ofPasses passes).passes = passes := by
  have hfold (d : Dispatcher) : (passes.foldl add d).passes = d.passes ++ passes := by
    induction passes generalizing d with
    | nil => simp
    | cons pass passes ih => simp [ih, add, enter]
  exact hfold {}

theorem reached_of_lt {passes : List Pass} {ps : List Nat} (h : ∀ p ∈ ps, p < passes.length) :
    reached passes ps = ps.filterMap (fun p => passes[p]?) := by
  induction ps with
  | nil => rfl
  | cons p ps ih =>
      obtain ⟨hp, hps⟩ := List.forall_mem_cons.mp h
      simp [reached, List.getElem?_eq_getElem hp, ih hps]

theorem served_ofPasses (passes : List Pass) (kind : NodeKind) :
    (ofPasses passes).served kind = passes.filter (kind ∈ ·.kinds) := by
  have hconsistent := isConsistentWith_ofPasses passes
  have hlt : ∀ p ∈ positions (passes.map .added) kind, p < passes.length := by
    intro p hp
    simpa using lt_length_of_mem_positions hp
  have hpasses : passes = (passes.map .added).map Registration.pass := by
    simp [Function.comp_def, Registration.pass]
  calc (ofPasses passes).served kind
      = (positions (passes.map .added) kind).filterMap (fun p => passes[p]?) := by
        rw [served, passes_ofPasses, hconsistent.routes, reached_of_lt hlt]
    _ = ((passes.map .added).filter (·.Serves kind)).map Registration.pass := by
        rw [← filterMap_positions, List.map_filterMap]
        refine List.filterMap_congr fun p _ => ?_
        rw [← List.getElem?_map, ← hpasses]
    _ = passes.filter (kind ∈ ·.kinds) := by
        have hid : Registration.pass ∘ Registration.added = (id : Pass → Pass) := rfl
        rw [List.filter_map, List.map_map, hid, List.map_id]
        exact List.filter_congr fun pass _ => decide_eq_decide.mpr Iff.rfl

end Dispatcher

-- What the analysis of the statements may do: hand over nodes that are in them, warn of
-- hazards in them, and report that one of them cannot be analysed.
def Act.IsDueTo (statements : List Stmt) : Act → Prop
  | visit node => ∃ s ∈ statements, node.region.IsIn (.stmt s)
  | report issue =>
    (∃ s ∈ statements, ∃ (hazard : Hazard) (e : Expr), (Region.expr e).IsIn (.stmt s) ∧
      issue = hazard.issue e.location) ∨
    ∃ s ∈ statements, ∃ fatal, s.fault? = some fatal ∧
      (∃ r : Region, r.IsIn (.stmt s) ∧ fatal.IsAt r) ∧ issue = fatal.issue

theorem Act.IsDueTo.mono {statements others : List Stmt} (hsub : statements ⊆ others) {act : Act}
    (h : act.IsDueTo statements) : act.IsDueTo others := by
  cases act with
  | visit node =>
      obtain ⟨s, hs, hnode⟩ := h
      exact ⟨s, hsub hs, hnode⟩
  | report issue =>
      rcases h with ⟨s, hs, hhazard⟩ | ⟨s, hs, hfatal⟩
      · exact .inl ⟨s, hsub hs, hhazard⟩
      · exact .inr ⟨s, hsub hs, hfatal⟩

-- The issues of a run are told by what it does, whatever the passes are. What it does
-- depends on variables and constants only.
def Traced (step : Dispatcher → State → State) (due : Act → Prop) : Prop :=
  ∀ scope constants, ∃ (acts : List Act) (scope' constants' : Scope), (∀ act ∈ acts, due act) ∧
    ∀ d s, s.scope = scope → s.constants = constants →
      (step d s).issues = s.issues.reportAll (acts.flatMap d.findings) ∧
      (step d s).scope = scope' ∧ (step d s).constants = constants'

theorem Act.IsWithin.isDueTo {statement : Stmt} {act : Act}
    (h : act.IsWithin (·.IsIn (.stmt statement))) : act.IsDueTo [statement] := by
  cases act with
  | visit node => exact ⟨statement, by simp, h⟩
  | report issue => exact .inl ⟨statement, by simp, h⟩

-- If the statement ends fatally, all of its findings are taken back.
theorem traced_runStatement (statement : Stmt) :
    Traced (fun d s => runStatement d s statement) (Act.IsDueTo [statement]) := by
  intro scope constants
  obtain ⟨⟨outcome, scope', constants', acts⟩, haccount⟩ :=
    Accounted.execute statement (fun _ => id) scope constants
  cases outcome with
  | ok a =>
      refine ⟨acts, scope', constants', fun act hact => (haccount.within act hact).isDueTo, ?_⟩
      intro d s hs hc
      simp only [runStatement, haccount.result_eq d hs hc, Account.result, and_true]
      exact d.issues_performAll s acts
  | error fatal =>
      refine ⟨[.report fatal.issue], scope', constants', ?_, ?_⟩
      · have hfault : statement.fault? = some fatal := by
          have hends := Eval.ends_execute statement (d := {}) { scope, constants }
          rw [Eval.fault?, haccount.result_eq {} rfl rfl] at hends
          exact hends.symm
        simp only [List.mem_singleton, forall_eq]
        exact .inr ⟨statement, by simp, fatal, hfault, haccount.fatal rfl, rfl⟩
      · intro d s hs hc
        simp only [runStatement, haccount.result_eq d hs hc, Account.result, and_true,
          d.rollback_performAll]
        rfl

-- By induction on the statements.
theorem traced_run (statements : List Stmt) :
    Traced (fun d s => run d s statements) (Act.IsDueTo statements) := by
  induction statements with
  | nil =>
      intro scope constants
      exact ⟨[], scope, constants, by simp, fun _ _ hs hc => ⟨rfl, hs, hc⟩⟩
  | cons statement statements ih =>
      intro scope constants
      obtain ⟨acts, scope', constants', hdue, hfirst⟩ :=
        traced_runStatement statement scope constants
      obtain ⟨more, scope'', constants'', hdueMore, hrest⟩ := ih scope' constants'
      refine ⟨acts ++ more, scope'', constants'', ?_, ?_⟩
      · intro act hact
        rcases List.mem_append.mp hact with hact | hact
        · exact (hdue act hact).mono (by simp)
        · exact (hdueMore act hact).mono (by simp)
      · intro d s hs hc
        obtain ⟨hissues, hscope, hconstants⟩ := hfirst d s hs hc
        rw [List.flatMap_append, Issues.reportAll_append, ← hissues]
        exact hrest d (runStatement d s statement) hscope hconstants

namespace Rule

-- What a rule finds in a node, if it asks for its kind.
def found (rule : Rule) (node : Node) : List Issue :=
  if node.kind ∈ rule.kinds then rule.inspect node else []

theorem reports_of_mem_found {rule : Rule} {node : Node} {issue : Issue}
    (h : issue ∈ rule.found node) : rule.Reports node issue := by
  unfold found at h
  split at h
  · exact reports_of_mem_inspect h
  · simp at h

theorem code_of_mem_found {rule : Rule} {node : Node} {issue : Issue}
    (h : issue ∈ rule.found node) : issue.code = rule.code :=
  (reports_of_mem_found h).code_eq

-- What rules find when the analysis does something.
def findings (rules : List Rule) : Act → List Issue
  | .visit node => rules.flatMap (·.found node)
  | .report issue => [issue]

theorem findings_ofPasses (rules : List Rule) :
    (Dispatcher.ofPasses (rules.map Rule.pass)).findings = findings rules := by
  funext act
  cases act with
  | visit node =>
      rw [Dispatcher.findings, Dispatcher.served_ofPasses, findings, List.filter_map,
        List.flatMap_map]
      induction rules with
      | nil => rfl
      | cons rule rules ih =>
          have hpass : rule.pass.kinds = rule.kinds := rfl
          rw [List.flatMap_cons, ← ih, List.filter_cons, found, Function.comp_apply, hpass]
          by_cases hkind : node.kind ∈ rule.kinds
          · rw [if_pos hkind, if_pos (decide_eq_true hkind)]
            rfl
          · rw [if_neg hkind, if_neg (by simpa using hkind)]
            rfl
  | report issue => rfl

end Rule

-- The issues of an analysis are what its rules find in the same acts for all settings.
theorem exists_acts_analyze (statements : List Stmt) :
    ∃ acts : List Act, (∀ act ∈ acts, act.IsDueTo statements) ∧ ∀ settings : Settings,
      analyze settings statements =
        Issues.reportAll [] (acts.flatMap (Rule.findings settings.rules)) := by
  obtain ⟨acts, scope, constants, hdue, hrun⟩ := traced_run statements [] []
  refine ⟨acts, hdue, fun settings => ?_⟩
  rw [← Rule.findings_ofPasses]
  exact (hrun _ {} rfl rfl).1

theorem exists_act_of_mem_analyze {settings : Settings} {statements : List Stmt} {issue : Issue}
    (h : issue ∈ analyze settings statements) :
    ∃ act : Act, act.IsDueTo statements ∧ issue ∈ Rule.findings settings.rules act := by
  obtain ⟨acts, hdue, hissues⟩ := exists_acts_analyze statements
  rw [hissues] at h
  have hfound := (Issues.mem_of_mem_reportAll h).resolve_left (by simp)
  obtain ⟨act, hact, hmem⟩ := List.mem_flatMap.mp hfound
  exact ⟨act, hdue act hact, hmem⟩

end PhpLint
