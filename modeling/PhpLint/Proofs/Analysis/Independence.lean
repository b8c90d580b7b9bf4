import Mathlib.Data.List.Basic
import PhpLint.Proofs.Analysis.Findings
import PhpLint.Proofs.Syntax.CallPlaces

namespace PhpLint

-- The function that a node calls, and where.
def Node.call? : Node → Option (Identifier × Location)
  | expr (.call name _ location) _ => some (name, location)
  | _ => none

theorem Node.exists_of_call?_eq_some {node : Node} {name : Identifier} {location : Location}
    (h : node.call? = some (name, location)) :
    ∃ arguments, node.region = .expr (.call name arguments location) := by
  unfold call? at h
  split at h
  · next called arguments place operands =>
    cases h
    exact ⟨arguments, rfl⟩
  · cases h

namespace Rule

-- Rules are told apart by their codes as well as by their keys.
theorem code_eq_iff (a b : Rule) : a.code = b.code ↔ a.name = b.name := by
  cases a <;> cases b <;> simp [code, name]

-- The analysis itself reports under other codes.
theorem code_ne_of_isDueTo {statements : List Stmt} {issue : Issue}
    (h : (Act.report issue).IsDueTo statements) (rule : Rule) : issue.code ≠ rule.code := by
  rcases h with ⟨s, -, hazard, e, -, rfl⟩ | ⟨s, -, fatal, -, -, rfl⟩
  · exact rule.code_ne.1.symm
  · exact rule.code_ne.2.symm

theorem filter_found (rule : Rule) (node : Node) (code : String) :
    (rule.found node).filter (·.code ≠ code) =
      if rule.code = code then [] else rule.found node := by
  split
  · next hsame =>
    rw [List.filter_eq_nil_iff]
    intro issue hissue
    simp [code_of_mem_found hissue, hsame]
  · next hother =>
    rw [List.filter_eq_self]
    intro issue hissue
    simp [code_of_mem_found hissue, hother]

-- Without a rule its issues are not found, and nothing else changes.
theorem findings_filter {statements : List Stmt} (rules : List Rule) (rule : Rule) {act : Act}
    (h : act.IsDueTo statements) :
    findings (rules.filter (·.name ≠ rule.name)) act =
      (findings rules act).filter (·.code ≠ rule.code) := by
  cases act with
  | report issue => simp [findings, code_ne_of_isDueTo h rule]
  | visit node =>
      simp only [findings, List.filter_flatMap, filter_found]
      induction rules with
      | nil => rfl
      | cons first rules ih =>
          by_cases hname : first.name = rule.name
          · simpa [hname, (code_eq_iff first rule).mpr hname] using ih
          · simpa [hname, mt (code_eq_iff first rule).mp hname] using ih

-- The rule on debug code is told of further functions.
def learn (names : List String) : Rule → Rule
  | debugCode further => debugCode (further ++ names)
  | rule => rule

theorem name_learn (names : List String) (rule : Rule) : (rule.learn names).name = rule.name := by
  cases rule <;> rfl

theorem found_learn (names : List String) {rule : Rule} (h : rule.code ≠ "debug.code")
    (node : Node) : (rule.learn names).found node = rule.found node := by
  cases rule with
  | debugCode further => exact absurd rfl h
  | _ => rfl

theorem code_learn (names : List String) (rule : Rule) : (rule.learn names).code = rule.code := by
  cases rule <;> rfl

theorem filter_findings_learn (names : List String) (rules : List Rule) (act : Act) :
    (findings (rules.map (learn names)) act).filter (·.code ≠ "debug.code") =
      (findings rules act).filter (·.code ≠ "debug.code") := by
  cases act with
  | report issue => rfl
  | visit node =>
      simp only [findings, List.filter_flatMap, filter_found, List.flatMap_map, code_learn]
      congr 1
      funext rule
      split
      · rfl
      · next hcode => exact found_learn names hcode node

def debugIssue (name : Identifier) (location : Location) : Issue :=
  ⟨"debug.code", .notice, "Function " ++ calledName name ++
    "() is a debug function, please don't use it in production.", location⟩

def isDebug (further : List String) (name : Identifier) : Prop :=
  calledName name ∈ debugFunctions ++ further.map String.toLower

instance (further : List String) (name : Identifier) : Decidable (isDebug further name) :=
  inferInstanceAs (Decidable (_ ∈ _))

theorem isDebug_append {further : List String} {name : Identifier} (names : List String)
    (h : isDebug further name) : isDebug (further ++ names) name := by
  unfold isDebug at h ⊢
  rw [List.map_append, ← List.append_assoc]
  exact List.mem_append_left _ h

-- The rule looks at nothing but calls.
theorem found_debugCode (further : List String) (node : Node) :
    (debugCode further).found node =
      (node.call?.toList.filter fun call => isDebug further call.1).map
        fun call => debugIssue call.1 call.2 := by
  fun_cases Node.call? node with
  | case1 name arguments location operands =>
      by_cases hdebug : isDebug further name
      · simp only [Option.toList_some, hdebug, decide_true, List.filter_cons_of_pos]
        exact if_pos hdebug
      · simp only [Option.toList_some, hdebug, decide_false, Bool.false_eq_true, not_false_eq_true,
          List.filter_cons_of_neg]
        exact if_neg hdebug
  | case2 hcall =>
      simp only [found, inspect, inspectDebug]
      split <;> rfl

theorem mem_found_debugCode {further : List String} {node : Node} {issue : Issue} :
    issue ∈ (debugCode further).found node ↔ ∃ name location,
      node.call? = some (name, location) ∧ isDebug further name ∧
      issue = debugIssue name location := by
  rw [found_debugCode]
  rcases node.call? with _ | ⟨name, location⟩
  · simp
  · simp [and_assoc, eq_comm]

theorem findings_subset_learn (names : List String) (rules : List Rule) (act : Act) :
    findings rules act ⊆ findings (rules.map (learn names)) act := by
  cases act with
  | report issue => exact List.Subset.refl _
  | visit node =>
      intro issue hissue
      simp only [findings, List.flatMap_map, List.mem_flatMap] at hissue ⊢
      obtain ⟨rule, hrule, hfound⟩ := hissue
      refine ⟨rule, hrule, ?_⟩
      cases rule with
      | debugCode further =>
          obtain ⟨name, location, hcall, hdebug, hissue⟩ := mem_found_debugCode.mp hfound
          exact mem_found_debugCode.mpr
            ⟨name, location, hcall, isDebug_append names hdebug, hissue⟩
      | _ => exact hfound

-- A choice that keeps the issues of other rules, and of the calls that are found with
-- further functions those that are found without them.
theorem found_eq_filter_learn {names : List String} {rule : Rule} {node : Node} {p : Issue → Bool}
    (hother : ∀ issue : Issue, issue.code ≠ "debug.code" → p issue)
    (hcall : ∀ further name location, rule = debugCode further →
      node.call? = some (name, location) →
      (p (debugIssue name location) ↔ isDebug further name)) :
    rule.found node = ((rule.learn names).found node).filter p := by
  by_cases hcode : rule.code = "debug.code"
  · cases rule with
    | debugCode further =>
        rw [learn, found_debugCode, found_debugCode, List.filter_map, List.filter_filter]
        congr 1
        refine List.filter_congr fun call hmem => ?_
        have hp := hcall further call.1 call.2 rfl (by simpa using hmem)
        by_cases hdebug : isDebug further call.1
        · simp [hdebug, isDebug_append names hdebug, hp.mpr hdebug]
        · have hpf : p (debugIssue call.1 call.2) = false := by simpa using mt hp.mp hdebug
          simp [hdebug, hpf]
    | _ => simp [code] at hcode
  · rw [found_learn names hcode]
    symm
    rw [List.filter_eq_self]
    intro issue hissue
    exact hother issue (by rwa [code_of_mem_found hissue])

end Rule

namespace Settings

-- The settings with a rule turned off.
def disable (settings : Settings) (rule : String) : Settings :=
  let current := (settings.sections.get? rule).getD ⟨none, []⟩
  { settings with sections := settings.sections.put rule { current with enabled := some false } }

-- The settings with further functions for the rule on debug code.
def addFunctions (settings : Settings) (names : List String) : Settings :=
  let current := (settings.sections.get? "debug_code").getD ⟨none, []⟩
  let functions := settings.strings "debug_code" "functions" ++ names
  { settings with
    sections := settings.sections.put "debug_code"
      { current with options := current.options.put "functions" functions } }

theorem isEnabled_disable (settings : Settings) (rule name : String) :
    (settings.disable rule).isEnabled name = (decide (name ≠ rule) && settings.isEnabled name) := by
  simp only [disable, isEnabled, Entries.get?_put]
  split <;> simp_all

theorem strings_disable (settings : Settings) (rule name option : String) :
    (settings.disable rule).strings name option = settings.strings name option := by
  simp only [disable, strings, Entries.get?_put]
  split
  · next hname =>
    rw [hname]
    cases settings.sections.get? rule <;> rfl
  · rfl

theorem isEnabled_addFunctions (settings : Settings) (names : List String) (name : String) :
    (settings.addFunctions names).isEnabled name = settings.isEnabled name := by
  simp only [addFunctions, isEnabled, Entries.get?_put]
  split
  · next hname =>
    rw [hname]
    cases settings.sections.get? "debug_code" <;> rfl
  · rfl

theorem strings_addFunctions (settings : Settings) (names : List String) :
    (settings.addFunctions names).strings "debug_code" "functions" =
      settings.strings "debug_code" "functions" ++ names := by
  rw [strings, addFunctions]
  simp [Entries.get?_put]

theorem rules_disable (settings : Settings) (rule : String) :
    (settings.disable rule).rules = settings.rules.filter (·.name ≠ rule) := by
  simp only [rules, strings_disable, isEnabled_disable, List.filter_filter]

theorem rules_addFunctions (settings : Settings) (names : List String) :
    (settings.addFunctions names).rules = settings.rules.map (Rule.learn names) := by
  have hall : Rule.all (settings.strings "debug_code" "functions" ++ names) =
      (Rule.all (settings.strings "debug_code" "functions")).map (Rule.learn names) := rfl
  simp only [rules, strings_addFunctions, isEnabled_addFunctions, hall, List.filter_map]
  congr 2
  funext rule
  simp [Rule.name_learn]

theorem further_of_mem_rules {settings : Settings} {further : List String}
    (h : Rule.debugCode further ∈ settings.rules) :
    further = settings.strings "debug_code" "functions" := by
  have hmem := (List.mem_filter.mp h).1
  simpa [Rule.all] using hmem

end Settings

section Insertion

-- Calls at the same place are calls of the same function.
def CallsAgree (pieces : List Piece) : Prop :=
  ∀ ⦃name other : Identifier⦄ ⦃arguments others : List Expr⦄ ⦃location : Location⦄,
    .expr (.call name arguments location) ∈ pieces →
    .expr (.call other others location) ∈ pieces → Rule.calledName name = Rule.calledName other

-- The calls of a source are even at different places.
theorem callsAgree_parseSource (source file : String) :
    CallsAgree ((parseSource source file).1.flatMap Stmt.pieces) := by
  intro name other arguments others location hname hother
  rw [(callsApart_parseSource source file).name_eq hname hother]

variable {statements : List Stmt} {acts : List Act} (settings : Settings)

-- Debug code is found in a call at its place.
theorem exists_call_of_mem_findings (hdue : ∀ act ∈ acts, act.IsDueTo statements) {issue : Issue}
    (h : issue ∈ acts.flatMap (Rule.findings settings.rules)) (hcode : issue.code = "debug.code") :
    ∃ node name, Act.visit node ∈ acts ∧ node.call? = some (name, issue.location) ∧
      Rule.isDebug (settings.strings "debug_code" "functions") name := by
  obtain ⟨act, hact, hissue⟩ := List.mem_flatMap.mp h
  cases act with
  | report other =>
      rw [List.mem_singleton.mp hissue] at hcode
      exact absurd hcode (Rule.code_ne_of_isDueTo (hdue _ hact) (.debugCode []))
  | visit node =>
      obtain ⟨rule, hrule, hfound⟩ := List.mem_flatMap.mp hissue
      have hsame := (Rule.code_of_mem_found hfound).symm.trans hcode
      cases rule with
      | debugCode further =>
          obtain ⟨name, location, hcall, hdebug, rfl⟩ := Rule.mem_found_debugCode.mp hfound
          rw [Settings.further_of_mem_rules hrule] at hdebug
          exact ⟨node, name, hact, hcall, hdebug⟩
      | _ => simp [Rule.code] at hsame

-- A call that is handed to the passes is among the nodes of the statements.
theorem exists_call_of_visit (hdue : ∀ act ∈ acts, act.IsDueTo statements) {node : Node}
    (hvisit : .visit node ∈ acts) {name : Identifier} {location : Location}
    (hcall : node.call? = some (name, location)) :
    ∃ arguments, .expr (.call name arguments location) ∈ statements.flatMap Stmt.pieces := by
  obtain ⟨arguments, hregion⟩ := Node.exists_of_call?_eq_some hcall
  obtain ⟨s, hs, hin⟩ := hdue _ hvisit
  rw [hregion] at hin
  exact ⟨arguments, List.mem_flatMap.mpr ⟨s, hs, hin.mem_pieces rfl⟩⟩

-- Whether there is debug code at a place depends on the call there.
theorem isDebug_of_mem_findings (hdue : ∀ act ∈ acts, act.IsDueTo statements)
    (hagree : CallsAgree (statements.flatMap Stmt.pieces)) {node : Node}
    (hvisit : .visit node ∈ acts) {name : Identifier} {issue : Issue}
    (hcall : node.call? = some (name, issue.location))
    (h : issue ∈ acts.flatMap (Rule.findings settings.rules))
    (hcode : issue.code = "debug.code") :
    Rule.isDebug (settings.strings "debug_code" "functions") name := by
  obtain ⟨other, called, hother, hcalled, hdebug⟩ :=
    exists_call_of_mem_findings settings hdue h hcode
  obtain ⟨arguments, hname⟩ := exists_call_of_visit hdue hvisit hcall
  obtain ⟨others, hsame⟩ := exists_call_of_visit hdue hother hcalled
  rwa [Rule.isDebug, hagree hname hsame]

-- The issues with further functions, of which those without them are a choice by place.
theorem exists_choice_findings (hdue : ∀ act ∈ acts, act.IsDueTo statements)
    (hagree : CallsAgree (statements.flatMap Stmt.pieces)) (names : List String) :
    ∃ p : Issue → Bool, (∀ a b : Issue, a.repeats b → p a = p b) ∧
      acts.flatMap (Rule.findings settings.rules) =
        (acts.flatMap (Rule.findings (settings.addFunctions names).rules)).filter p := by
  classical
  let found := acts.flatMap (Rule.findings settings.rules)
  let p : Issue → Bool := fun issue => decide (issue.code = "debug.code" →
    ∃ other ∈ found, other.code = "debug.code" ∧ other.location = issue.location)
  refine ⟨p, fun a b hrepeats => ?_, ?_⟩
  · obtain ⟨hcode, hlocation⟩ := Issue.repeats_iff.mp hrepeats
    simp only [p, hcode, hlocation]
  · rw [List.filter_flatMap, Settings.rules_addFunctions]
    refine List.flatMap_congr fun act hact => ?_
    have hother (issue : Issue) (hne : issue.code ≠ "debug.code") : p issue := by
      simp [p, hne]
    cases act with
    | report issue =>
        have hne := Rule.code_ne_of_isDueTo (hdue _ hact) (.debugCode [])
        simp [Rule.findings, hother issue hne]
    | visit node =>
        simp only [Rule.findings, List.filter_flatMap, List.flatMap_map]
        refine List.flatMap_congr fun rule hrule => Rule.found_eq_filter_learn hother ?_
        rintro further name location rfl hcall
        have hfurther := Settings.further_of_mem_rules hrule
        simp only [p, decide_eq_true_eq]
        constructor
        · intro h
          obtain ⟨other, hmem, hcode, hlocation⟩ := h rfl
          rw [hfurther]
          exact isDebug_of_mem_findings settings hdue hagree hact (hlocation ▸ hcall) hmem hcode
        · intro hdebug _
          refine ⟨Rule.debugIssue name location, ?_, rfl, rfl⟩
          refine List.mem_flatMap.mpr ⟨_, hact, List.mem_flatMap.mpr ⟨_, hrule, ?_⟩⟩
          exact Rule.mem_found_debugCode.mpr ⟨name, location, hcall, hdebug, rfl⟩

end Insertion

-- Each rule finds its issues whatever the others do. Without a rule exactly its issues are
-- missing. With further functions there are further issues on debug code, and no other
-- issue changes or moves, as long as no place has calls of two functions. In sources that
-- were parsed none has.
theorem rules_do_not_interfere (settings : Settings) (statements : List Stmt) :
    (∀ rule : Rule, analyze (settings.disable rule.name) statements =
      (analyze settings statements).filter (·.code ≠ rule.code)) ∧
    (∀ names,
      (analyze (settings.addFunctions names) statements).filter (·.code ≠ "debug.code") =
        (analyze settings statements).filter (·.code ≠ "debug.code") ∧
      (∀ issue ∈ analyze settings statements,
        ∃ other ∈ analyze (settings.addFunctions names) statements, issue.repeats other) ∧
      (CallsAgree (statements.flatMap Stmt.pieces) →
        (analyze settings statements).Sublist
          (analyze (settings.addFunctions names) statements))) ∧
    ∀ source file, CallsAgree ((parseSource source file).1.flatMap Stmt.pieces) := by
  obtain ⟨acts, hdue, hissues⟩ := exists_acts_analyze statements
  have hcode (code : String) (a b : Issue) (h : a.repeats b) :
      decide (a.code ≠ code) = decide (b.code ≠ code) := by
    rw [(Issue.repeats_iff.mp h).1]
  refine ⟨fun rule => ?_, fun names => ⟨?_, ?_, fun hagree => ?_⟩, callsAgree_parseSource⟩
  · rw [hissues, hissues, Issues.filter_reportAll (hcode rule.code), Settings.rules_disable,
      List.filter_flatMap]
    congr 1
    exact List.flatMap_congr fun act hact => Rule.findings_filter _ rule (hdue act hact)
  · rw [hissues, hissues, Issues.filter_reportAll (hcode "debug.code"),
      Issues.filter_reportAll (hcode "debug.code"), Settings.rules_addFunctions,
      List.filter_flatMap, List.filter_flatMap]
    congr 1
    exact List.flatMap_congr fun act _ => Rule.filter_findings_learn names _ act
  · intro issue hissue
    rw [hissues] at hissue ⊢
    have hfound := (Issues.mem_of_mem_reportAll hissue).resolve_left (by simp)
    obtain ⟨act, hact, hmem⟩ := List.mem_flatMap.mp hfound
    rw [Settings.rules_addFunctions]
    exact Issues.exists_repeats_reportAll
      (List.mem_flatMap.mpr ⟨act, hact, Rule.findings_subset_learn names _ act hmem⟩)
  · obtain ⟨p, hp, hchoice⟩ := exists_choice_findings settings hdue hagree names
    rw [hissues, hissues, hchoice, ← List.filter_nil (p := p), ← Issues.filter_reportAll hp]
    exact List.filter_sublist

-- In a source with a call that becomes debug code in front of one that is so anyway, and an
-- issue of another rule.
theorem rules_do_not_interfere_twoCalls :
    let statements := (parseSource "<?php f(array()); var_dump(1);" "").1
    let short : Issue := ⟨"array.short-syntax", .notice,
      "Please use [] (short syntax) for array definition.", ⟨"", 8, 15, 1, 1⟩⟩
    let added := Rule.debugIssue ⟨"f", ⟨"", 6, 7, 1, 1⟩⟩ ⟨"", 6, 16, 1, 1⟩
    let kept := Rule.debugIssue ⟨"var_dump", ⟨"", 18, 26, 1, 1⟩⟩ ⟨"", 18, 29, 1, 1⟩
    CallsAgree (statements.flatMap Stmt.pieces) ∧
      analyze {} statements = [short, kept] ∧
      analyze (Settings.disable {} "debug_code") statements = [short] ∧
      analyze (Settings.disable {} "debug_code") statements =
        (analyze {} statements).filter (·.code ≠ "debug.code") ∧
      analyze (Settings.addFunctions {} ["f"]) statements = [short, added, kept] ∧
      (analyze {} statements).Sublist (analyze (Settings.addFunctions {} ["f"]) statements) := by
  intro statements short added kept
  obtain ⟨hdisable, hadd, hsources⟩ := rules_do_not_interfere {} statements
  have hagree : CallsAgree (statements.flatMap Stmt.pieces) := hsources _ _
  exact ⟨hagree, by decide +kernel, by decide +kernel, hdisable (.debugCode []), by decide +kernel,
    (hadd ["f"]).2.2 hagree⟩

-- Of two calls at one place, the one that becomes debug code takes the issue of the other.
theorem addFunctions_replaces_at_one_place :
    let location : Location := ⟨"a.php", 6, 16, 1, 1⟩
    let call (name : String) : Stmt := .expr (.call ⟨name, location⟩ [] location) location
    let statements := [call "f", call "var_dump"]
    analyze {} statements = [Rule.debugIssue ⟨"var_dump", location⟩ location] ∧
      analyze (Settings.addFunctions {} ["f"]) statements =
        [Rule.debugIssue ⟨"f", location⟩ location] ∧
      ¬(analyze {} statements).Sublist
        (analyze (Settings.addFunctions {} ["f"]) statements) := by
  decide +kernel

end PhpLint
