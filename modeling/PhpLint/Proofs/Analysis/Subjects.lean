import PhpLint.Proofs.Analysis.Journal
import PhpLint.Rule.Basic

namespace PhpLint

-- The expression that is judged in a node: itself, or the condition of a statement.
def Node.subject? : Node → Option Expr
  | expr e _ => some e
  | stmt (.ifThen condition ..) _ | stmt (.ifElse condition ..) _ | stmt (.loop condition ..) _ =>
    some condition
  | _ => none

theorem Node.isIn_of_subject?_eq_some {node : Node} {e : Expr} (h : node.subject? = some e) :
    (Region.expr e).IsIn node.region := by
  unfold subject? at h
  split at h
  · cases h
    exact .refl
  · cases h
    exact .inner (by simp [region, Region.inner, Stmt.inner]) .refl
  · cases h
    exact .inner (by simp [region, Region.inner, Stmt.inner]) .refl
  · cases h
    exact .inner (by simp [region, Region.inner, Stmt.inner]) .refl
  · cases h

namespace Rule

-- The code of the issues that a rule reports.
def code : Rule → String
  | aliasCheck => "fcall.alias"
  | debugCode _ => "debug.code"
  | randomMigration => "rand.api.migration"
  | useCast => "fcall.cast"
  | deprecatedOptions => "deprecated.option"
  | shortArrays => "array.short-syntax"
  | cannotReturn => "return.construct"
  | testAnnotation => "test.annotation"
  | constantCondition => "condition.constant"

-- Hazards and what ends an analysis are reported under other codes.
theorem code_ne (rule : Rule) : rule.code ≠ "division.zero" ∧ rule.code ≠ "compiler.fatal" := by
  cases rule <;> simp [code]

-- What is found in a node, is found at the expression that is judged in it, or inside a
-- method.
inductive Place : Node → Location → Prop
  | subject {node : Node} {e : Expr} {location : Location} :
    node.subject? = some e → location = e.location → Place node location
  | inner {m : Method} {r : Region} {location : Location} :
    r.IsIn (.method m) → location = r.location → Place (.method m) location

theorem Place.exists_isIn {node : Node} {location : Location} (h : Place node location) :
    ∃ r : Region, r.IsIn node.region ∧ r.location = location := by
  cases h with
  | subject hsubject hlocation =>
      exact ⟨_, Node.isIn_of_subject?_eq_some hsubject, hlocation.symm⟩
  | inner hr hlocation => exact ⟨_, hr, hlocation.symm⟩

-- Every rule reports under its own code only.
structure Reports (rule : Rule) (node : Node) (issue : Issue) : Prop where
  code_eq : issue.code = rule.code
  place : Place node issue.location

mutual
theorem exists_return : ∀ {s : Stmt} {location : Location}, location ∈ valuedReturns s →
    ∃ r : Region, r.IsIn (.stmt s) ∧ r.location = location
  | .ret (some e) place, location, h => by
      rw [valuedReturns, List.mem_singleton] at h
      exact ⟨_, .refl, h.symm⟩
  | .ifThen condition thenBranch _, location, h => by
      rw [valuedReturns] at h
      obtain ⟨r, hr, hlocation⟩ := exists_return h
      exact ⟨r, .inner (by simp [Region.inner, Stmt.inner]) hr, hlocation⟩
  | .ifElse condition thenBranch elseBranch _, location, h => by
      rw [valuedReturns, List.mem_append] at h
      rcases h with h | h
      all_goals
        obtain ⟨r, hr, hlocation⟩ := exists_return h
        exact ⟨r, .inner (by simp [Region.inner, Stmt.inner]) hr, hlocation⟩
  | .loop condition body _, location, h => by
      rw [valuedReturns] at h
      obtain ⟨r, hr, hlocation⟩ := exists_return h
      exact ⟨r, .inner (by simp [Region.inner, Stmt.inner]) hr, hlocation⟩
  | .block ⟨statements, _⟩, location, h => by
      rw [valuedReturns] at h
      obtain ⟨s, hs, r, hr, hlocation⟩ := exists_return_of_mem h
      exact ⟨r, .inner (List.mem_map_of_mem hs) hr, hlocation⟩
  | .ret none _, _, h | .expr .., _, h | .echo .., _, h | .html _, _, h | .functionDecl .., _, h
  | .classDecl .., _, h | .constDecl .., _, h | .invalid _, _, h => by
      simp [valuedReturns] at h

theorem exists_return_of_mem : ∀ {ss : List Stmt} {location : Location},
    location ∈ listValuedReturns ss →
    ∃ s ∈ ss, ∃ r : Region, r.IsIn (.stmt s) ∧ r.location = location
  | [], _, h => by simp [listValuedReturns] at h
  | s :: ss, location, h => by
      rw [listValuedReturns, List.mem_append] at h
      rcases h with h | h
      · exact ⟨s, List.mem_cons_self, exists_return h⟩
      · obtain ⟨s, hs, hreturn⟩ := exists_return_of_mem h
        exact ⟨s, List.mem_cons_of_mem _ hs, hreturn⟩
end

theorem reports_of_mem_map {rule : Rule} {node : Node} {α : Type} {found : List α}
    {describe : α → Issue} {issue : Issue} (h : issue ∈ found.map describe)
    (hreports : ∀ a ∈ found, rule.Reports node (describe a)) : rule.Reports node issue := by
  obtain ⟨a, ha, rfl⟩ := List.mem_map.mp h
  exact hreports a ha

theorem reports_of_mem_condition {node : Node} {condition : Expr} {operands : List Value}
    {issue : Issue} (hsubject : node.subject? = some condition)
    (h : issue ∈ conditionIssues condition operands) : constantCondition.Reports node issue :=
  reports_of_mem_map h fun _ _ => ⟨rfl, .subject hsubject rfl⟩

theorem reports_of_mem_inspect {rule : Rule} {node : Node} {issue : Issue}
    (h : issue ∈ rule.inspect node) : rule.Reports node issue := by
  cases rule with
  | aliasCheck =>
      simp only [inspect, inspectAlias] at h
      split at h
      · exact reports_of_mem_map h fun _ _ => ⟨rfl, .subject rfl rfl⟩
      · simp at h
  | debugCode further =>
      simp only [inspect, inspectDebug] at h
      split at h
      · split at h
        · rw [List.mem_singleton.mp h]
          exact ⟨rfl, .subject rfl rfl⟩
        · simp at h
      · simp at h
  | randomMigration =>
      simp only [inspect, inspectRandom] at h
      split at h
      · exact reports_of_mem_map h fun _ _ => ⟨rfl, .subject rfl rfl⟩
      · simp at h
  | useCast =>
      simp only [inspect, inspectCast] at h
      split at h
      · exact reports_of_mem_map h fun _ _ => ⟨rfl, .subject rfl rfl⟩
      · simp at h
  | deprecatedOptions =>
      simp only [inspect, inspectOption] at h
      split at h
      · split at h
        · split at h
          · exact reports_of_mem_map h fun _ _ => ⟨rfl, .subject rfl rfl⟩
          · simp at h
        · simp at h
      · simp at h
  | shortArrays =>
      simp only [inspect, inspectArray] at h
      split at h
      · rw [List.mem_singleton.mp h]
        exact ⟨rfl, .subject rfl rfl⟩
      · simp at h
  | cannotReturn =>
      simp only [inspect, inspectReturns] at h
      split at h
      · next signature modifiers body place =>
        split at h
        · refine reports_of_mem_map h fun location hreturn => ⟨rfl, ?_⟩
          obtain ⟨s, hs, r, hr, hlocation⟩ := exists_return_of_mem hreturn
          have hbody : r.IsIn (.body body) := .inner (List.mem_map_of_mem hs) hr
          exact .inner (.inner (by simp [Region.inner]) hbody) hlocation.symm
        · simp at h
      · simp at h
  | testAnnotation =>
      simp only [inspect, inspectAnnotation] at h
      split at h
      · next name parameters doc modifiers body place =>
        split at h
        · rw [List.mem_singleton.mp h]
          refine ⟨rfl, .inner (r := .name name) (.inner ?_ .refl) rfl⟩
          simp [Region.inner, Signature.inner]
        · simp at h
      · simp at h
  | constantCondition =>
      simp only [inspect, inspectCondition] at h
      split at h
      · exact reports_of_mem_condition rfl h
      · exact reports_of_mem_condition rfl h
      · split at h
        · simp at h
        · exact reports_of_mem_condition rfl h
      · simp at h

end Rule

end PhpLint
