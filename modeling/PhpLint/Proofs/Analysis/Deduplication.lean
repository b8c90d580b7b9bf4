import Mathlib.Data.List.Nodup
import PhpLint.Proofs.Analysis.Validity
import PhpLint.Proofs.Syntax.Spans

namespace PhpLint

namespace Issue

-- A finding about an expression: a rule makes it where the expression is judged, or the
-- analysis warns of a hazard or ends fatally at the expression.
inductive IsAbout (rules : List Rule) (e : Expr) : Issue → Prop where
  | found {rule : Rule} {node : Node} {issue : Issue} :
    rule ∈ rules → node.subject? = some e → issue ∈ rule.found node → IsAbout rules e issue
  | hazard (hazard : Hazard) : IsAbout rules e (hazard.issue e.location)
  | fatal {fatal : Fatal} : fatal.location = e.location → IsAbout rules e fatal.issue

-- What the analysis of the statements reports: a finding about one of their expressions, or
-- one that a rule makes in one of their methods.
def IsFoundIn (rules : List Rule) (statements : List Stmt) (issue : Issue) : Prop :=
  (∃ e ∈ statements.flatMap Stmt.expressions, issue.IsAbout rules e) ∨
  ∃ s ∈ statements, ∃ m, (Region.method m).IsIn (.stmt s) ∧
    ∃ rule ∈ rules, issue ∈ rule.found (.method m)

variable {rules : List Rule} {e : Expr} {issue other : Issue}

theorem IsAbout.location_eq (h : issue.IsAbout rules e) : issue.location = e.location := by
  cases h with
  | found _ hsubject hfound =>
      cases (Rule.reports_of_mem_found hfound).place with
      | subject hother hlocation =>
          rw [hlocation, Option.some.inj (hother.symm.trans hsubject)]
      | inner => cases hsubject
  | hazard => rfl
  | fatal hlocation => exact hlocation

end Issue

namespace Node

theorem subject?_of_kind_eq_method {node : Node} (h : node.kind = .method) :
    node.subject? = none := by
  cases node with
  | method => rfl
  | expr e => cases e <;> cases h
  | stmt s => cases s <;> cases h

end Node

namespace Rule

theorem kind_mem_of_mem_found {rule : Rule} {node : Node} {issue : Issue}
    (h : issue ∈ rule.found node) : node.kind ∈ rule.kinds := by
  unfold found at h
  split at h
  · assumption
  · simp at h

theorem kinds_eq_of_code_eq {a b : Rule} (h : a.code = b.code) : a.kinds = b.kinds := by
  cases a <;> cases b <;> simp_all [code, kinds]

-- A rule that looks at methods looks at nothing else.
theorem eq_method_of_mem_kinds {rule : Rule} (h : .method ∈ rule.kinds) {kind : NodeKind}
    (hkind : kind ∈ rule.kinds) : kind = .method := by
  cases rule <;> simp_all [kinds]

end Rule

section Deduplication

variable {rules : List Rule} {statements : List Stmt} {e : Expr} {issue other : Issue}

-- What is found in a method has a code of its own.
theorem Issue.IsAbout.code_ne {rule : Rule} {m : Method} (h : issue.IsAbout rules e)
    (hother : other ∈ rule.found (.method m)) : issue.code ≠ other.code := by
  intro hcode
  rw [Rule.code_of_mem_found hother] at hcode
  cases h with
  | @found judge node _ _ hsubject hfound =>
      rw [Rule.code_of_mem_found hfound] at hcode
      have hkind := Rule.kind_mem_of_mem_found hfound
      rw [Rule.kinds_eq_of_code_eq hcode] at hkind
      have hmethod := Rule.eq_method_of_mem_kinds (Rule.kind_mem_of_mem_found hother) hkind
      cases (Node.subject?_of_kind_eq_method hmethod).symm.trans hsubject
  | hazard => exact rule.code_ne.1 hcode.symm
  | fatal => exact rule.code_ne.2 hcode.symm

-- Expressions of a file are told apart by their places, so findings are too.
theorem Issue.IsAbout.of_repeats
    (hspans : ((statements.flatMap Stmt.expressions).map Expr.span).Nodup)
    (he : e ∈ statements.flatMap Stmt.expressions) (h : issue.IsAbout rules e)
    (hother : other.IsFoundIn rules statements) (hrepeats : issue.repeats other) :
    other.IsAbout rules e := by
  obtain ⟨hcode, hlocation⟩ := Issue.repeats_iff.mp hrepeats
  rcases hother with ⟨e', he', habout⟩ | ⟨s, -, m, -, rule, -, hfound⟩
  · rw [h.location_eq, habout.location_eq] at hlocation
    have hspan : e.span = e'.span := by rw [Expr.span, Expr.span, hlocation]
    rwa [List.inj_on_of_nodup_map hspans he he' hspan]
  · exact absurd hcode (h.code_ne hfound)

-- What a statement without placeholders is rejected for is one of its expressions.
theorem Fatal.IsAt.exists_expr {fatal : Fatal} {r : Region} (h : fatal.IsAt r)
    (hplaceholder : fatal.placeholder? = none) :
    ∃ e, r = .expr e ∧ fatal.location = e.location := by
  cases r with
  | expr e => exact ⟨e, rfl, h⟩
  | stmt s =>
      cases h
      cases hplaceholder
  | _ => exact h.elim

theorem isFoundIn_of_mem_findings (hwhole : ∀ s ∈ statements, s.IsWhole) {act : Act}
    (hdue : act.IsDueTo statements) (h : issue ∈ Rule.findings rules act) :
    issue.IsFoundIn rules statements := by
  have hmem {s : Stmt} {e : Expr} (hs : s ∈ statements) (he : (Region.expr e).IsIn (.stmt s)) :
      e ∈ statements.flatMap Stmt.expressions :=
    List.mem_flatMap.mpr ⟨s, hs, he.mem_expressions⟩
  cases act with
  | visit node =>
      obtain ⟨s, hs, hnode⟩ := hdue
      obtain ⟨rule, hrule, hfound⟩ := List.mem_flatMap.mp h
      cases (Rule.reports_of_mem_found hfound).place with
      | subject hsubject _ =>
          have he := (Node.isIn_of_subject?_eq_some hsubject).trans hnode
          exact .inl ⟨_, hmem hs he, .found hrule hsubject hfound⟩
      | inner => exact .inr ⟨s, hs, _, hnode, rule, hrule, hfound⟩
  | report reported =>
      rw [List.mem_singleton.mp h]
      rcases hdue with ⟨s, hs, hazard, e, he, rfl⟩ | ⟨s, hs, fatal, hfault, ⟨r, hr, hat⟩, rfl⟩
      · exact .inl ⟨e, hmem hs he, .hazard hazard⟩
      · obtain ⟨e, rfl, hlocation⟩ :=
          hat.exists_expr (placeholder?_of_isWhole (hwhole s hs) hfault)
        exact .inl ⟨e, hmem hs hr, .fatal hlocation⟩

def Issues.AreFoundIn (rules : List Rule) (statements : List Stmt) (issues : Issues) : Prop :=
  ∀ issue ∈ issues, issue.IsFoundIn rules statements

theorem Issues.AreFoundIn.reportAll {issues : Issues} (h : issues.AreFoundIn rules statements)
    {acts : List Act} (hwhole : ∀ s ∈ statements, s.IsWhole)
    (hdue : ∀ act ∈ acts, act.IsDueTo statements) :
    (issues.reportAll (acts.flatMap (Rule.findings rules))).AreFoundIn rules statements := by
  intro issue hissue
  rcases Issues.mem_of_mem_reportAll hissue with hold | hnew
  · exact h issue hold
  · obtain ⟨act, hact, hmem⟩ := List.mem_flatMap.mp hnew
    exact isFoundIn_of_mem_findings hwhole (hdue act hact) hmem

-- A step lemma: whether the statement succeeds or not.
theorem Issues.AreFoundIn.execute {state : State}
    (h : state.issues.AreFoundIn rules statements) (hwhole : ∀ s ∈ statements, s.IsWhole)
    {s : Stmt} (hs : s ∈ statements) :
    (EStateM.after (PhpLint.execute (.ofPasses (rules.map Rule.pass)) s) state).issues.AreFoundIn
      rules statements := by
  obtain ⟨account, haccount⟩ := Accounted.execute s (fun _ => id) state.scope state.constants
  have hdue : ∀ act ∈ account.acts, act.IsDueTo statements := fun act hact =>
    (haccount.within act hact).isDueTo.mono (by simpa using hs)
  have hissues := Dispatcher.issues_after haccount.tells (.ofPasses (rules.map Rule.pass)) rfl rfl
  rw [Rule.findings_ofPasses] at hissues
  rw [hissues]
  exact h.reportAll hwhole hdue

theorem areFoundIn_analyze (settings : Settings) (hwhole : ∀ s ∈ statements, s.IsWhole) :
    (analyze settings statements).AreFoundIn settings.rules statements := by
  intro issue hissue
  obtain ⟨act, hdue, hmem⟩ := exists_act_of_mem_analyze hissue
  exact isFoundIn_of_mem_findings hwhole hdue hmem

end Deduplication

-- In a source without errors places are nested: each region contains its parts, which follow
-- one another, and an expression is larger than its operands. So no two expressions share a
-- place. All that is reported in the analysis is about an expression or is found in a method,
-- and a finding about an expression is dropped only if one with the same code, which is about
-- this very expression, has been reported.
theorem spans_nested {source file : String} (h : (parseSource source file).2 = []) :
    (∀ s ∈ (parseSource source file).1, ∀ r : Region, r.IsIn (.stmt s) → r.Nests) ∧
    ((parseSource source file).1.Pairwise fun s t => s.location.stop ≤ t.location.start) ∧
    (((parseSource source file).1.flatMap Stmt.expressions).map Expr.span).Nodup ∧
    ∀ settings : Settings,
      (analyze settings (parseSource source file).1).AreFoundIn settings.rules
        (parseSource source file).1 ∧
      (∀ s ∈ (parseSource source file).1, ∀ state : State,
        state.issues.AreFoundIn settings.rules (parseSource source file).1 →
        (EStateM.after (execute (.ofPasses (settings.rules.map Rule.pass)) s)
          state).issues.AreFoundIn settings.rules (parseSource source file).1) ∧
      ∀ issues : Issues, issues.AreFoundIn settings.rules (parseSource source file).1 →
        ∀ e ∈ (parseSource source file).1.flatMap Stmt.expressions, ∀ issue : Issue,
          issue.IsAbout settings.rules e → issues.isNew issue = false →
          ∃ other ∈ issues, issue.repeats other ∧ other.IsAbout settings.rules e := by
  obtain ⟨first, last, hsequence⟩ := exists_sequence_parseSource h
  have hspans := nodup_spans_parseSource h
  have hwhole : ∀ s ∈ (parseSource source file).1, s.IsWhole :=
    (errors_parse_eq_nil_iff (lex source file)).mp h
  refine ⟨?_, ?_, hspans, fun settings => ⟨areFoundIn_analyze settings hwhole, ?_, ?_⟩⟩
  · intro s hs
    exact (hsequence.nested (.stmt s) (List.mem_map_of_mem hs)).throughout
  · exact List.pairwise_map.mp hsequence.apart
  · intro s hs state hstate
    exact hstate.execute hwhole hs
  · intro issues hissues e he issue habout hold
    obtain ⟨other, hother, hrepeats⟩ : ∃ other ∈ issues, issue.repeats other := by
      simpa [Issues.isNew] using hold
    exact ⟨other, hother, hrepeats, habout.of_repeats hspans he (hissues other hother) hrepeats⟩

-- Both divisions start at the same byte, and both are reported.
theorem spans_nested_divisions :
    (parseSource "<?php (1/0)/0;" "").2 = [] ∧
    (∀ s ∈ (parseSource "<?php (1/0)/0;" "").1, ∀ r : Region, r.IsIn (.stmt s) → r.Nests) ∧
    (((parseSource "<?php (1/0)/0;" "").1.flatMap Stmt.expressions).map Expr.span).Nodup ∧
    (analyze {} (parseSource "<?php (1/0)/0;" "").1).map
      (fun issue => (issue.code, issue.location.start, issue.location.stop)) =
        [("division.zero", 7, 10), ("division.zero", 7, 13)] := by
  have hparse : (parseSource "<?php (1/0)/0;" "").2 = [] := by decide +kernel
  obtain ⟨hnests, -, hspans, -⟩ := spans_nested hparse
  exact ⟨hparse, hnests, hspans, by decide +kernel⟩

end PhpLint
