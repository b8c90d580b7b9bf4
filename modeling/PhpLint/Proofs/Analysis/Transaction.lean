import PhpLint.Proofs.Analysis.Findings

namespace PhpLint

namespace Issues

-- No two issues have the same code and place.
def Distinct (issues : Issues) : Prop :=
  issues.Pairwise fun a b => ¬ a.repeats b

instance (issues : Issues) : Decidable issues.Distinct :=
  inferInstanceAs (Decidable (List.Pairwise _ _))

-- The findings that are new when they are reported one after the other.
def recorded : Issues → List Issue → Issues
  | _, [] => []
  | issues, issue :: findings =>
    if issues.isNew issue then issue :: recorded (issues ++ [issue]) findings
    else recorded issues findings

theorem reportAll_eq_append (issues : Issues) (findings : List Issue) :
    issues.reportAll findings = issues ++ issues.recorded findings := by
  induction findings generalizing issues with
  | nil => simp [reportAll, recorded]
  | cons issue findings ih =>
      have hstep : issues.reportAll (issue :: findings) =
          (issues.report issue).reportAll findings := rfl
      rw [hstep, ih, report, recorded]
      split <;> simp

theorem Distinct.report {issues : Issues} (h : issues.Distinct) (issue : Issue) :
    (issues.report issue).Distinct := by
  unfold Issues.report
  split
  · next hnew =>
    refine List.pairwise_append.mpr ⟨h, List.pairwise_singleton _ _, ?_⟩
    intro other hother last hlast hrepeats
    rw [List.mem_singleton.mp hlast] at hrepeats
    obtain ⟨hcode, hlocation⟩ := Issue.repeats_iff.mp hrepeats
    have hold : ¬ issue.repeats other := by
      simp only [isNew, Bool.not_eq_true', List.any_eq_false] at hnew
      exact hnew other hother
    exact hold (Issue.repeats_iff.mpr ⟨hcode.symm, hlocation.symm⟩)
  · exact h

theorem Distinct.reportAll {issues : Issues} (h : issues.Distinct) (findings : List Issue) :
    (issues.reportAll findings).Distinct := by
  induction findings generalizing issues with
  | nil => exact h
  | cons issue findings ih => exact ih (h.report issue)

-- What is left of a statement that ends fatally: an issue of its own, unless there is one
-- for that place already.
def fatalEntry (issues : Issues) (fatal : Fatal) : Issues :=
  if ∃ issue ∈ issues, issue.code = "compiler.fatal" ∧ issue.location = fatal.location then []
  else [⟨"compiler.fatal", .fatal, fatal.cause.message, fatal.location⟩]

theorem report_fatal (issues : Issues) (fatal : Fatal) :
    issues.report fatal.issue = issues ++ issues.fatalEntry fatal := by
  have hrepeats (issue : Issue) : fatal.issue.repeats issue ↔
      issue.code = "compiler.fatal" ∧ issue.location = fatal.location := by
    rw [Issue.repeats_iff, eq_comm, @eq_comm _ fatal.issue.location]
    rfl
  have hnew : issues.isNew fatal.issue ↔
      ¬ ∃ issue ∈ issues, issue.code = "compiler.fatal" ∧ issue.location = fatal.location := by
    simp only [← hrepeats, isNew, Bool.not_eq_true', List.any_eq_false, not_exists, not_and]
  unfold report fatalEntry
  by_cases h : issues.isNew fatal.issue
  · rw [if_pos h, if_neg (hnew.mp h)]
    rfl
  · rw [if_neg h, if_pos (Decidable.not_not.mp (mt hnew.mpr h)), List.append_nil]

end Issues

-- The issues that were recorded between two states: of what the passes find in the nodes
-- that were handed to them, and of the hazards in between, whatever is new, in that order.
structure Records (d : Dispatcher) (s t : State) (new : Issues) : Prop where
  issues_eq : t.issues = s.issues ++ new
  new_eq : ∃ (acts : List Act) (events : List Event), (∀ act ∈ acts, act.IsOrdinary) ∧
    t.events = events ++ s.events ∧ events.reverse.map Event.node = acts.filterMap Act.node? ∧
    new = s.issues.recorded (acts.flatMap d.findings)

theorem records_performAll (d : Dispatcher) (s : State) (scope constants : Scope) {acts : List Act}
    (h : ∀ act ∈ acts, act.IsOrdinary) :
    Records d s { s.performAll d acts with scope, constants }
      (s.issues.recorded (acts.flatMap d.findings)) := by
  obtain ⟨events, hevents, hnodes⟩ := s.events_performAll d acts
  exact ⟨by rw [← Issues.reportAll_eq_append, d.issues_performAll],
    acts, events, h, hevents, hnodes, rfl⟩

-- What a run adds to the issues. A statement that succeeds adds what was recorded in it. One
-- that ends fatally adds nothing but its own entry, and keeps nothing of what was recorded.
inductive Ledger (d : Dispatcher) : State → List Stmt → Issues → State → Prop
  | done (s : State) : Ledger d s [] [] s
  | commit {s t u : State} {statement : Stmt} {statements : List Stmt} {new more : Issues} :
    execute d statement s = .ok () t → Records d s t new → Ledger d t statements more u →
    Ledger d s (statement :: statements) (new ++ more) u
  | abort {s t u : State} {statement : Stmt} {fatal : Fatal} {statements : List Stmt}
      {more : Issues} :
    execute d statement s = .error fatal t →
    Ledger d { t with issues := s.issues ++ s.issues.fatalEntry fatal } statements more u →
    Ledger d s (statement :: statements) (s.issues.fatalEntry fatal ++ more) u

-- A statement either succeeds and records, or everything that it reported is undone.
theorem runStatement_cases (d : Dispatcher) (s : State) (statement : Stmt) :
    (∃ new, execute d statement s = .ok () (runStatement d s statement) ∧
      Records d s (runStatement d s statement) new) ∨
    ∃ fatal t, execute d statement s = .error fatal t ∧
      runStatement d s statement =
        { t with issues := s.issues ++ s.issues.fatalEntry fatal } := by
  obtain ⟨⟨outcome, scope, constants, acts⟩, haccount⟩ :=
    Accounted.execute statement (fun _ => id) s.scope s.constants
  have hrun := haccount.result_eq d (s := s) rfl rfl
  cases outcome with
  | ok a =>
      left
      have hstate : runStatement d s statement = { s.performAll d acts with scope, constants } := by
        simp only [runStatement, hrun, Account.result]
      rw [hstate]
      exact ⟨_, hrun, records_performAll d s scope constants haccount.ordinary⟩
  | error fatal =>
      right
      refine ⟨fatal, _, hrun, ?_⟩
      simp only [runStatement, hrun, Account.result, d.rollback_performAll, Issues.report_fatal]

-- By induction on the statements, each of which goes on from where the last one ended.
theorem exists_ledger_run (d : Dispatcher) (s : State) (statements : List Stmt) :
    ∃ added, Ledger d s statements added (run d s statements) := by
  induction statements generalizing s with
  | nil => exact ⟨[], .done s⟩
  | cons statement statements ih =>
      obtain ⟨more, hmore⟩ := ih (runStatement d s statement)
      rcases runStatement_cases d s statement with ⟨new, hok, hnew⟩ | ⟨fatal, t, herror, hrun⟩
      · exact ⟨_, .commit hok hnew hmore⟩
      · have hrest : Ledger d { t with issues := s.issues ++ s.issues.fatalEntry fatal }
            statements more (run d s (statement :: statements)) := hrun ▸ hmore
        exact ⟨_, .abort herror hrest⟩

theorem Ledger.issues_eq {d : Dispatcher} {s t : State} {statements : List Stmt} {added : Issues}
    (h : Ledger d s statements added t) : t.issues = s.issues ++ added := by
  induction h with
  | done s => simp
  | commit _ hnew _ ih => rw [ih, hnew.issues_eq, List.append_assoc]
  | abort _ _ ih => rw [ih, List.append_assoc]

theorem Ledger.distinct {d : Dispatcher} {s t : State} {statements : List Stmt} {added : Issues}
    (h : Ledger d s statements added t) (hs : s.issues.Distinct) : t.issues.Distinct := by
  induction h with
  | done s => exact hs
  | commit _ hnew _ ih =>
      obtain ⟨acts, events, -, -, -, rfl⟩ := hnew.new_eq
      refine ih ?_
      rw [hnew.issues_eq, ← Issues.reportAll_eq_append]
      exact hs.reportAll _
  | @abort s _ _ _ fatal _ _ _ _ ih =>
      refine ih ?_
      simpa only [Issues.report_fatal] using hs.report fatal.issue

-- The statements of a program are transactions. The issues from before a run stay as they
-- are, each statement adds to them in its turn, and none of the issues is repeated.
theorem statements_are_transactions (d : Dispatcher) {s : State} (h : s.issues.Distinct)
    (statements : List Stmt) :
    ∃ added, Ledger d s statements added (run d s statements) ∧
      (run d s statements).issues = s.issues ++ added ∧ (run d s statements).issues.Distinct := by
  obtain ⟨added, hadded⟩ := exists_ledger_run d s statements
  exact ⟨added, hadded, hadded.issues_eq, hadded.distinct h⟩

-- The finding before the fatal end of a block is taken back, and a statement that is fatal
-- where this was reported before leaves no further issue.
theorem statements_are_transactions_fatalBlock :
    let place (start : Nat) : Location := ⟨"", start, start + 1, 1, 1⟩
    let dump (start : Nat) : Stmt := .expr (.call ⟨"var_dump", place start⟩ [] (place start))
      (place start)
    let rebind : Expr := .assign none (.var "this" (place 3)) (.literal .null (place 4)) (place 3)
    let s : State := { issues := [Fatal.issue ⟨.invalidStatement, place 0⟩] }
    let program : List Stmt :=
      [.invalid (place 0), dump 1, .block ⟨[dump 2, .expr rebind (place 3)], place 2⟩, dump 5]
    let d := Dispatcher.ofPasses ((Rule.all []).map Rule.pass)
    s.issues.Distinct ∧
      (∃ added, Ledger d s program added (run d s program) ∧
        (run d s program).issues = s.issues ++ added ∧ (run d s program).issues.Distinct) ∧
      (run d s program).issues.map (fun issue => (issue.code, issue.location)) =
        [("compiler.fatal", place 0), ("debug.code", place 1), ("compiler.fatal", place 3),
          ("debug.code", place 5)] := by
  intro place dump rebind s program d
  have hdistinct : s.issues.Distinct := by decide
  exact ⟨hdistinct, statements_are_transactions d hdistinct program, by decide +kernel⟩

end PhpLint
