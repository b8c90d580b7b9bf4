import PhpLint.Proofs.Analysis.Findings
import PhpLint.Proofs.Syntax.Places

namespace PhpLint

-- Whatever the analysis does, what is found then is at a region of a statement.
theorem exists_isIn_of_mem_findings {statements : List Stmt} {rules : List Rule} {act : Act}
    (hdue : act.IsDueTo statements) {issue : Issue} (h : issue ∈ Rule.findings rules act) :
    ∃ s ∈ statements, ∃ r : Region, r.IsIn (.stmt s) ∧ r.location = issue.location := by
  cases act with
  | visit node =>
      obtain ⟨s, hs, hnode⟩ := hdue
      obtain ⟨rule, -, hfound⟩ := List.mem_flatMap.mp h
      obtain ⟨r, hr, hlocation⟩ := (Rule.reports_of_mem_found hfound).place.exists_isIn
      exact ⟨s, hs, r, hr.trans hnode, hlocation⟩
  | report other =>
      rw [List.mem_singleton.mp h]
      rcases hdue with ⟨s, hs, hazard, e, he, rfl⟩ | ⟨s, hs, fatal, -, ⟨r, hr, hat⟩, rfl⟩
      · exact ⟨s, hs, .expr e, he, rfl⟩
      · exact ⟨s, hs, r, hr, hat.location_eq.symm⟩

theorem exists_isIn_of_mem_analyze {settings : Settings} {statements : List Stmt} {issue : Issue}
    (h : issue ∈ analyze settings statements) :
    ∃ s ∈ statements, ∃ r : Region, r.IsIn (.stmt s) ∧ r.location = issue.location := by
  obtain ⟨act, hdue, hmem⟩ := exists_act_of_mem_analyze h
  exact exists_isIn_of_mem_findings hdue hmem

theorem analyzeSource_eq (settings : Settings) (source file : String) :
    analyzeSource settings source file =
      if (parseSource source file).2.isEmpty then .ok (analyze settings (parseSource source file).1)
      else .error (parseSource source file).2 := by
  unfold analyzeSource
  rcases parseSource source file with ⟨statements, _ | ⟨error, errors⟩⟩
  · rfl
  · rfl

-- From the lexemes up to the issues all places are in the source, whether it has errors or
-- not: those of lexemes, of all that a tree is made of, of the comments that document it, of
-- errors, and of what is found in the statements that are left.
theorem coordinates_coherent (source file : String) :
    (∀ lexeme ∈ lex source file, lexeme.location.IsCoherent source file) ∧
    (∀ statement ∈ (parseSource source file).1, ∀ r : Region, r.IsIn (.stmt statement) →
      r.location.IsCoherent source file ∧
      ∀ doc, r.doc? = some doc → doc.location.IsCoherent source file) ∧
    (∀ error ∈ (parseSource source file).2, error.location.IsCoherent source file) ∧
    ∀ settings : Settings,
      (∀ issue ∈ analyze settings (parseSource source file).1,
        issue.location.IsCoherent source file) ∧
      match analyzeSource settings source file with
      | .ok issues => ∀ issue ∈ issues, issue.location.IsCoherent source file
      | .error errors => ∀ error ∈ errors, error.location.IsCoherent source file := by
  obtain ⟨htree, herrors⟩ := isCoherent_parseSource source file
  have hissues (settings : Settings) :
      ∀ issue ∈ analyze settings (parseSource source file).1,
        issue.location.IsCoherent source file := by
    intro issue hissue
    obtain ⟨s, hs, r, hr, hlocation⟩ := exists_isIn_of_mem_analyze hissue
    exact hlocation ▸ (htree s hs r hr).location
  refine ⟨fun _ => isCoherent_of_mem_lex, ?_, herrors, fun settings => ⟨hissues settings, ?_⟩⟩
  · intro statement hstatement r hr
    exact ⟨(htree statement hstatement r hr).location, (htree statement hstatement r hr).doc⟩
  · by_cases hempty : (parseSource source file).2.isEmpty
    · rw [analyzeSource_eq, if_pos hempty]
      exact hissues settings
    · rw [analyzeSource_eq, if_neg hempty]
      exact herrors

end PhpLint
