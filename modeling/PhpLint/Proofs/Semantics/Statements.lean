import PhpLint.Proofs.Semantics.Expressions

namespace PhpLint

open Run Eval
open EStateM (after_of_ok bind_eq_ok_iff Keeps)

abbrev anyVariable (_ : String) : Prop := True

abbrev noVariable (_ : String) : Prop := False

-- A statement of a program that declares no constants. Nothing is assigned where it may
-- be left out, and defaults neither read nor assign variables.
structure Stmt.IsPlain (s : Stmt) : Prop where
  constant : s.declaresConstant = false
  operands part : part ∈ listParts s.operands → part.skipsNoAssignment = true
  defaults part : part ∈ listParts s.defaults → part.skipsNoAssignment = true ∧
    part.isVariable = false
  unassigned e : e ∈ s.defaults → e.assigned = []

namespace Stmt

instance (s : Stmt) : Decidable s.IsPlain :=
  decidable_of_iff (s.declaresConstant = false ∧
    (∀ part ∈ listParts s.operands, part.skipsNoAssignment = true) ∧
    (∀ part ∈ listParts s.defaults, part.skipsNoAssignment = true ∧ part.isVariable = false) ∧
    ∀ e ∈ s.defaults, e.assigned = [])
    ⟨fun ⟨hc, ho, hd, hu⟩ => ⟨hc, ho, hd, hu⟩, fun ⟨hc, ho, hd, hu⟩ => ⟨hc, ho, hd, hu⟩⟩

theorem IsPlain.admits_operands {s : Stmt} (h : s.IsPlain) :
    Admits anyVariable (listParts s.operands) :=
  ⟨h.operands, fun _ _ _ => trivial⟩

theorem IsPlain.admits_defaults {s : Stmt} (h : s.IsPlain) :
    Admits noVariable (listParts s.defaults) where
  skips part hp := (h.defaults part hp).1
  reads name location hp := by
    have hvar := (h.defaults _ hp).2
    cases hvar

end Stmt

-- After a return the analysis goes on with statements that are not executed.
def Continues (flow : Flow) (_ : Unit) (t : State) (τ : Store) : Prop :=
  flow = .next → t.Describes anyVariable τ

section Statements

variable {d : Dispatcher} {names : List String} {readable : String → Prop}

theorem allows_of_isPlain {parts : List Stmt} (h : ∀ part ∈ parts, part.IsPlain) :
    Effect.Allows d Unassigned parts ∧ Effect.Allows d Undeclared parts :=
  ⟨unassigned_allows fun part hp => (h part hp).unassigned,
    undeclared_allows fun name e location hp => by cases (h _ hp).constant⟩

theorem undeclared_execute {s : Stmt} (h : ∀ part ∈ s.parts, part.IsPlain) :
    Keeps (Undeclared names) (execute d s) := by
  have hs := (undeclared_effect d).keeps_execute _ s (allows_of_isPlain h).2 (List.Subset.refl _)
  exact hs

theorem unassigned_execute (d : Dispatcher) {s : Stmt} (h : ∀ part ∈ s.parts, part.IsPlain)
    (hsub : s.assigned ⊆ names) : Keeps (Unassigned names) (execute d s) :=
  (unassigned_effect d).keeps_execute names s (allows_of_isPlain h).1 hsub

theorem idle_body {ss : List Stmt} (h : ∀ part ∈ blockParts ss, part.IsPlain) (scope : Scope) :
    Idle (inScope scope (executeAll d ss)) :=
  idle_inScope scope (allows_of_isPlain h).1 (allows_of_isPlain h).2

theorem Sound.flow {α : Type} {m : Run α} {x : Eval Unit} {R : α → Unit → Prop}
    (h : Sound anyVariable m x (Meets anyVariable R)) (flow : Flow) :
    Sound anyVariable (m >>= fun _ => pure flow) x Continues :=
  h.map (fun _ => flow) fun _ _ _ _ hmeets _ => hmeets.2

theorem sound_reach_flow {reached node : Node} {flow : Flow} (h : node.Tells reached) :
    Sound anyVariable (reach reached >>= fun _ => pure flow) (visit d node) Continues :=
  (sound_reach h).flow flow

theorem Sound.andThen {m n : Run Flow} {x y : Eval Unit} [Grows y]
    (hm : Sound anyVariable m x Continues) (hn : Sound anyVariable n y Continues) :
    Sound anyVariable
      (m >>= fun flow => match flow with | .next => n | .returned => pure .returned)
      (x >>= fun _ => y) Continues := by
  intro σ s b u hs hx trace outcome hrun
  obtain ⟨_, t, hxt, hyu⟩ := bind_eq_ok_iff.mp hx
  have hgrow := Grows.suffix hyu
  rcases hrun with ⟨hstop, rfl⟩ | ⟨flow, τ, first, rest, hfirst, hrest, rfl⟩
  · refine ⟨fun node hnode => ((hm hs hxt hstop).1 node hnode).mono hgrow, ?_⟩
    rintro a τ ⟨⟩
  · obtain ⟨htells, hnext⟩ := hm hs hxt hfirst
    cases flow with
    | next =>
        obtain ⟨htells', hcont⟩ := hn (hnext .next τ rfl rfl) hyu hrest
        refine ⟨fun node hnode => ?_, hcont⟩
        rcases List.mem_append.mp hnode with h | h
        · exact (htells node h).mono hgrow
        · exact htells' node h
    | returned =>
        obtain ⟨rfl, rfl⟩ := hrest
        rw [List.append_nil]
        refine ⟨fun node hnode => (htells node hnode).mono hgrow, ?_⟩
        rintro _ _ ⟨⟩ ⟨⟩

-- A branch that is taken. In the end what it may have assigned is forgotten.
theorem Sound.branch {m : Run Flow} {x : Eval Unit} (hm : Sound anyVariable m x Continues)
    (hkeeps : Keeps (Unassigned names) x) {σ : Store} {s t u : State}
    (hs : s.Describes anyVariable σ) (hxt : x s = .ok () t) (hgrow : t.events <:+ u.events)
    (hscope : u.scope = s.scope.forget names) (hconstants : u.constants = [])
    {trace : List Node} {outcome : Option (Flow × Store)} (hrun : m σ trace outcome) :
    (∀ node ∈ trace, u.Tells node) ∧
      ∀ flow τ, outcome = some (flow, τ) → Continues flow () u τ := by
  obtain ⟨htells, hnext⟩ := hm hs hxt hrun
  have hsame := hkeeps s
  rw [after_of_ok hxt] at hsame
  refine ⟨fun node hnode => (htells node hnode).mono hgrow, fun flow τ ho hflow => ?_⟩
  exact (hnext flow τ ho hflow).forget hsame hscope hconstants

theorem onBranch_eq_ok_iff {x : Eval Unit} {s u : State} :
    onBranch x s = .ok () u ↔ ∃ t, x s = .ok () t ∧ u = { t with scope := s.scope } := by
  rw [onBranch_apply]
  cases x s <;> simp [eq_comm]

theorem sound_ifThen {m : Run Flow} {x : Eval Unit} (hm : Sound anyVariable m x Continues)
    (hscope : Keeps (Unassigned names) x) (hconstants : Keeps (Undeclared names) x)
    (condition : Bool) :
    Sound anyVariable (if condition then m else pure .next)
      (onBranch x >>= fun _ => Eval.forget names) Continues := by
  intro σ s _ u hs hx trace outcome hrun
  obtain ⟨_, v, hxv, hforget⟩ := bind_eq_ok_iff.mp hx
  obtain ⟨t, hxt, rfl⟩ := onBranch_eq_ok_iff.mp hxv
  cases hforget
  have hnone := hconstants s
  rw [after_of_ok hxt] at hnone
  cases condition with
  | true =>
      refine hm.branch hscope hs hxt ?_ ?_ ?_ hrun
      · exact List.suffix_rfl
      · rfl
      · exact hnone.trans hs.constants
  | false =>
      obtain ⟨rfl, rfl⟩ := hrun
      exact tells_of_some fun _ => hs.forget (fun _ _ => rfl) rfl (hnone.trans hs.constants)

theorem sound_ifElse {m n : Run Flow} {x y : Eval Unit} [Grows y] {others : List String}
    (hm : Sound anyVariable m x Continues) (hn : Sound anyVariable n y Continues)
    (hscope : Keeps (Unassigned (names ++ others)) x)
    (hscope' : Keeps (Unassigned (names ++ others)) y)
    (hconstants : Keeps (Undeclared (names ++ others)) x)
    (hconstants' : Keeps (Undeclared (names ++ others)) y) (condition : Bool) :
    Sound anyVariable (if condition then m else n)
      (onBranch x >>= fun _ => onBranch y >>= fun _ => Eval.forget (names ++ others))
      Continues := by
  intro σ s _ u hs hx trace outcome hrun
  obtain ⟨_, v, hxv, hrest⟩ := bind_eq_ok_iff.mp hx
  obtain ⟨_, w, hyw, hforget⟩ := bind_eq_ok_iff.mp hrest
  obtain ⟨t, hxt, rfl⟩ := onBranch_eq_ok_iff.mp hxv
  obtain ⟨t', hyt, rfl⟩ := onBranch_eq_ok_iff.mp hyw
  cases hforget
  have hnone := hconstants s
  have hnone' := hconstants' { t with scope := s.scope }
  rw [after_of_ok hxt] at hnone
  rw [after_of_ok hyt] at hnone'
  have hs' : State.Describes anyVariable { t with scope := s.scope } σ := hs.of_eq rfl hnone
  have hempty := hnone'.trans hs'.constants
  have hgrow := Grows.suffix hyt
  cases condition with
  | true =>
      refine hm.branch hscope hs hxt ?_ ?_ ?_ hrun
      · exact hgrow
      · rfl
      · exact hempty
  | false =>
      refine hn.branch hscope' hs' hyt ?_ ?_ ?_ hrun
      · exact List.suffix_rfl
      · rfl
      · exact hempty

-- Every round starts from a store that the state with the assigned variables forgotten
-- describes, because a round changes nothing else.
theorem sound_loop {round : Run (Option Flow)} {x : Eval Unit}
    (hround : Sound anyVariable round x fun result _ t τ => result ≠ some .returned →
      State.Describes anyVariable { t with scope := t.scope.forget names } τ)
    (hscope : Keeps (Unassigned names) x) :
    Sound anyVariable (Repeats round)
      (Eval.forget names >>= fun _ => x >>= fun _ => Eval.forget names) Continues := by
  intro σ s _ u hs hx trace outcome hrun
  obtain ⟨_, v, hforget, hrest⟩ := bind_eq_ok_iff.mp hx
  obtain ⟨_, t, hxt, hforget'⟩ := bind_eq_ok_iff.mp hrest
  cases hforget
  cases hforget'
  have hsame : Unassigned names s { t with scope := t.scope.forget names } := by
    have heffect := unassigned_effect {}
    have hround := hscope { s with scope := s.scope.forget names }
    rw [after_of_ok hxt] at hround
    refine heffect.trans (heffect.forget (List.Subset.refl names)) ?_
    exact heffect.trans hround (heffect.forget (List.Subset.refl names))
  have hconstants := hs.constants
  have hstart : State.Describes anyVariable { s with scope := s.scope.forget names } σ :=
    hs.forget (fun _ _ => rfl) rfl hs.constants
  clear hs
  induction hrun with
  | stopped hstop =>
      refine ⟨(hround hstart hxt hstop).1, ?_⟩
      rintro flow τ ⟨⟩
  | ended hlast =>
      obtain ⟨htells, hnext⟩ := hround hstart hxt hlast
      refine ⟨htells, ?_⟩
      rintro flow τ ⟨⟩ rfl
      exact hnext _ _ rfl (by simp)
  | again hfirst _ ih =>
      obtain ⟨htells, hnext⟩ := hround hstart hxt hfirst
      have hagain := hnext _ _ rfl (by simp)
      obtain ⟨htells', hcont⟩ := ih (hagain.forget hsame rfl hconstants)
      refine ⟨fun node hnode => ?_, hcont⟩
      rcases List.mem_append.mp hnode with h | h
      · exact htells node h
      · exact htells' node h

theorem execute_loop (condition : Expr) (body : Stmt) (location : Location) :
    execute d (.loop condition body location) =
      (Eval.forget (condition.assigned ++ body.assigned) >>= fun _ =>
        (evaluate d condition >>= fun value =>
          visit d (.stmt (.loop condition body location) [value]) >>= fun _ => execute d body) >>=
        fun _ => Eval.forget (condition.assigned ++ body.assigned)) := by
  rw [execute]
  simp only [bind_assoc]

-- The rest of a round, once the condition is known.
theorem sound_round {m : Run Flow} {x : Eval Unit} (hm : Sound anyVariable m x Continues)
    (hscope : Keeps (Unassigned names) x) (hconstants : Keeps (Undeclared names) x)
    (condition : Bool) :
    Sound anyVariable
      (if condition then m >>= fun flow => pure flow.leaves? else pure (some Flow.next)) x
      fun result _ t τ => result ≠ some .returned →
        State.Describes anyVariable { t with scope := t.scope.forget names } τ := by
  cases condition with
  | true =>
      refine hm.map Flow.leaves? fun flow _ t τ hnext hleaves => ?_
      cases flow with
      | next =>
          have ht := hnext rfl
          exact ht.forget (fun _ _ => rfl) rfl ht.constants
      | returned => exact (hleaves rfl).elim
  | false =>
      rintro σ s _ t hs hx trace outcome ⟨rfl, rfl⟩
      have hsame := hscope s
      have hnone := hconstants s
      rw [after_of_ok hx] at hsame hnone
      refine tells_of_some fun _ => ?_
      exact hs.forget (fun name h => (hsame name h).symm) rfl (hnone.trans hs.constants)

theorem sound_methods (className : String) : ∀ methods : List Method,
    (∀ part ∈ methodParts methods, part.IsPlain) →
    (∀ c ∈ methods.filterMap (Method.callable? className), ∀ e ∈ c.defaults, e.assigned = []) →
    Sound readable (methodsReached methods) (executeMethods d className methods)
      (Meets readable fun _ _ => True)
  | [], _, _ => by
      rw [executeMethods, methodsReached]
      exact sound_pure trivial
  | ⟨_, _, none, _⟩ :: methods, h, hdefaults => by
      rw [executeMethods, methodsReached]
      refine .bind (sound_reach (.method _)) fun _ _ _ => ?_
      exact sound_methods className methods h hdefaults
  | ⟨signature, modifiers, some ⟨statements, _⟩, _⟩ :: methods, h, hdefaults => by
      simp only [List.filterMap_cons, Method.callable?, List.mem_cons,
        forall_eq_or_imp] at hdefaults
      rw [executeMethods, methodsReached]
      refine .bind (sound_reach (.method _)) fun _ _ _ => ?_
      refine .after (idle_parameterScope _ hdefaults.1) fun scope => ?_
      refine .after (idle_body (fun part hp => h part (by simp [methodParts, hp])) _) fun _ => ?_
      exact sound_methods className methods (fun part hp => h part (by simp [methodParts, hp]))
        hdefaults.2

mutual
theorem sound_execute : ∀ s : Stmt, (∀ part ∈ s.parts, part.IsPlain) →
    Sound anyVariable s.runs (execute d s) Continues
  | .expr e location, h => by
      have hs := h (.expr e location) (by simp [Stmt.parts])
      rw [execute, Stmt.runs]
      refine .bind (sound_evaluate e (hs.admits_operands.mono (by simp [Stmt.operands, listParts])))
        fun v told hv => ?_
      exact sound_reach_flow (.stmt (.cons hv .nil))
  | .echo es location, h => by
      have hs := h (.echo es location) (by simp [Stmt.parts])
      rw [execute, Stmt.runs]
      refine .bind (sound_list es hs.admits_operands) fun v told hv => ?_
      exact sound_reach_flow (.stmt (refines_take hv))
  | .ret none location, _ => by
      rw [execute, Stmt.runs]
      exact sound_reach_flow (.stmt .nil)
  | .ret (some e) location, h => by
      have hs := h (.ret (some e) location) (by simp [Stmt.parts])
      rw [execute, Stmt.runs]
      refine .bind (sound_evaluate e (hs.admits_operands.mono (by simp [Stmt.operands, listParts])))
        fun v told hv => ?_
      exact sound_reach_flow (.stmt (.cons hv .nil))
  | .ifThen condition thenBranch location, h => by
      have hs := h (.ifThen condition thenBranch location) (by simp [Stmt.parts])
      have hthen : ∀ part ∈ thenBranch.parts, part.IsPlain :=
        fun part hp => h part (by simp [Stmt.parts, hp])
      have hscope := unassigned_execute d hthen (List.Subset.refl _)
      rw [execute, Stmt.runs]
      refine .bind (sound_evaluate condition
        (hs.admits_operands.mono (by simp [Stmt.operands, listParts]))) fun v told hv => ?_
      refine .bind (sound_reach (.stmt (.cons hv .nil))) fun _ _ _ => ?_
      exact sound_ifThen (sound_execute thenBranch hthen) hscope (undeclared_execute hthen) v.isTrue
  | .ifElse condition thenBranch elseBranch location, h => by
      have hs := h (.ifElse condition thenBranch elseBranch location) (by simp [Stmt.parts])
      have hthen : ∀ part ∈ thenBranch.parts, part.IsPlain :=
        fun part hp => h part (by simp [Stmt.parts, hp])
      have helse : ∀ part ∈ elseBranch.parts, part.IsPlain :=
        fun part hp => h part (by simp [Stmt.parts, hp])
      have hscope := unassigned_execute d hthen (List.subset_append_left _ elseBranch.assigned)
      have hscope' := unassigned_execute d helse (List.subset_append_right thenBranch.assigned _)
      rw [execute, Stmt.runs]
      refine .bind (sound_evaluate condition
        (hs.admits_operands.mono (by simp [Stmt.operands, listParts]))) fun v told hv => ?_
      refine .bind (sound_reach (.stmt (.cons hv .nil))) fun _ _ _ => ?_
      exact sound_ifElse (sound_execute thenBranch hthen) (sound_execute elseBranch helse)
        hscope hscope' (undeclared_execute hthen) (undeclared_execute helse) v.isTrue
  | .loop condition body location, h => by
      have hs := h (.loop condition body location) (by simp [Stmt.parts])
      have hbody : ∀ part ∈ body.parts, part.IsPlain :=
        fun part hp => h part (by simp [Stmt.parts, hp])
      have hscope := unassigned_execute d hbody (List.subset_append_right condition.assigned _)
      have hassigned := (unassigned_effect d).keeps_evaluate condition
        (List.subset_append_left condition.assigned body.assigned)
      have heffect := unassigned_effect d
      rw [execute_loop, Stmt.runs]
      refine sound_loop ?_ ?_
      · refine .bind (sound_evaluate condition
          (hs.admits_operands.mono (by simp [Stmt.operands, listParts]))) fun v told hv => ?_
        refine .bind (sound_reach (.stmt (.cons hv .nil))) fun _ _ _ => ?_
        exact sound_round (sound_execute body hbody) hscope (undeclared_execute hbody) v.isTrue
      · exact heffect.keeps_bind hassigned fun _ =>
          heffect.keeps_bind (heffect.keeps_visit _) fun _ => hscope
  | .block ⟨statements, location⟩, h => by
      rw [execute, Stmt.runs]
      refine .bind (sound_reach (.stmt .nil)) fun _ _ _ => ?_
      exact sound_executeAll statements fun part hp => h part (by simp [Stmt.parts, hp])
  | .html location, _ => by
      rw [execute, Stmt.runs]
      exact sound_reach_flow (.stmt .nil)
  | .functionDecl signature ⟨statements, bodyLocation⟩ location, h => by
      have hs := h (.functionDecl signature ⟨statements, bodyLocation⟩ location)
        (by simp [Stmt.parts])
      have hbody : ∀ part ∈ blockParts statements, part.IsPlain :=
        fun part hp => h part (by simp [Stmt.parts, hp])
      rw [execute, Stmt.runs]
      refine .bind (sound_reach (.stmt .nil)) fun _ _ _ => ?_
      refine .after (idle_parameterScope _ fun e he => hs.unassigned e ?_) fun scope => ?_
      · simpa [Stmt.defaults, Stmt.callables, Callable.defaults] using he
      · exact (sound_idle (R := fun _ _ => True) (idle_body hbody scope) fun _ => trivial).imp
          fun _ _ _ _ h _ => h.2
  | .classDecl header methods location, h => by
      have hs := h (.classDecl header methods location) (by simp [Stmt.parts])
      rw [execute, Stmt.runs]
      refine .bind (sound_reach (.stmt .nil)) fun _ _ _ => ?_
      refine .flow (sound_methods _ methods ?_ ?_) .next
      · exact fun part hp => h part (by simp [Stmt.parts, hp])
      · exact fun c hc e he => hs.unassigned e (List.mem_flatMap.mpr ⟨c, hc, he⟩)
  | .constDecl name e location, h => by
      cases (h (.constDecl name e location) (by simp [Stmt.parts])).constant
  | .invalid location, _ => by
      rw [execute]
      rintro σ s _ _ hs hx
      cases hx

theorem sound_executeAll : ∀ ss : List Stmt, (∀ part ∈ blockParts ss, part.IsPlain) →
    Sound anyVariable (blockRuns ss) (executeAll d ss) Continues
  | [], _ => by
      rw [executeAll, blockRuns]
      exact (sound_pure (R := fun _ _ => True) trivial).imp fun _ _ _ _ h _ => h.2
  | s :: ss, h => by
      rw [executeAll, blockRuns]
      exact (sound_execute s fun part hp => h part (by simp [blockParts, hp])).andThen
        (sound_executeAll ss fun part hp => h part (by simp [blockParts, hp]))
end

end Statements

end PhpLint
