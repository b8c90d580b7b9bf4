import PhpLint.Proofs.Semantics.Statements

namespace PhpLint

open Run Eval
open EStateM (after after_of_ok bind_eq_ok_iff Keeps)

variable {d : Dispatcher} {α β : Type}

-- No variable has a value of which more than a name is known.
def Scope.IsOpen (scope : Scope) : Prop :=
  ∀ name, ((scope.get? name).getD .unknown).isOpen = true

-- The scope in which the body is analysed.
def Callable.scope (c : Callable) (scope : Scope) : Scope :=
  c.owner.elim scope fun className => scope.put "this" (.object className)

-- What the analysis does where a function or a method is declared.
def Callable.analysis (d : Dispatcher) (c : Callable) : Eval Unit := do
  let scope ← parameterScope d [] c.parameters
  inScope (c.scope scope) (executeAll d c.body)

theorem Sound.unread {name : String} {v : Datum} {f : Unit → Run α} {x : Eval β}
    {Q : α → β → State → Store → Prop} (h : Sound noVariable (f ()) x Q) :
    Sound noVariable (write name v >>= f) x Q := by
  rintro σ s b t hs hx trace outcome (⟨⟨_, ho⟩, _⟩ | ⟨_, τ, first, rest, ⟨rfl, ho⟩, hrest, rfl⟩)
  · cases ho
  · exact h ⟨hs.constants, fun _ _ hname => hname.elim⟩ hx hrest

theorem sound_arguments : ∀ (scope : Scope) (parameters : List Parameter), scope.IsOpen →
    Admits noVariable (listParts (parameters.filterMap (·.default))) →
    (∀ e ∈ parameters.filterMap (·.default), e.assigned = []) →
    Sound noVariable (argumentsRun parameters) (parameterScope d scope parameters)
      (Meets noVariable fun _ scope => scope.IsOpen)
  | scope, [], hopen, _, _ => by
      rw [parameterScope, argumentsRun]
      exact sound_pure hopen
  | scope, ⟨name, default, location⟩ :: rest, hopen, hadmits, hassigned => by
      have hopen' : Scope.IsOpen (scope.put name (.argument name)) := by
        intro other
        rw [Entries.get?_put]
        split
        · rfl
        · exact hopen other
      have hrest (hadmits : Admits noVariable (listParts (rest.filterMap (·.default))))
          (hassigned : ∀ e ∈ rest.filterMap (·.default), e.assigned = []) :
          Sound noVariable
            (choose .unknown >>= fun v => write name v >>= fun _ => argumentsRun rest)
            (parameterScope d (scope.put name (.argument name)) rest)
            (Meets noVariable fun _ scope => scope.IsOpen) :=
        .ofChoice fun _ _ => .unread (sound_arguments _ rest hopen' hadmits hassigned)
      rw [parameterScope, argumentsRun]
      cases default with
      | none => exact hrest hadmits hassigned
      | some e =>
          simp only [List.filterMap_cons, List.mem_cons, forall_eq_or_imp] at hadmits hassigned
          have he : Sound noVariable (either (do let _ ← e.runs) (pure ())) (evaluate d e)
              (Meets noVariable fun _ _ => True) := by
            refine .either ?_ (sound_idle (idle_evaluate hassigned.1) fun _ => trivial)
            exact (sound_evaluate e (hadmits.mono (by simp [listParts]))).map (fun _ => ())
              fun _ _ _ _ h => ⟨trivial, h.2⟩
          exact .bind he fun _ _ _ => hrest (hadmits.mono (by simp [listParts])) hassigned.2

theorem inScope_eq_ok_iff {scope : Scope} {x : Eval Unit} {s u : State} :
    inScope scope x s = .ok () u ↔
      ∃ t, x { s with scope } = .ok () t ∧ u = { t with scope := s.scope } := by
  simp only [inScope]
  cases x { s with scope } <;> simp [eq_comm]

-- An open scope describes every store, and the object that a method works on is known.
theorem describes_receiver (c : Callable) {scope : Scope} (hopen : scope.IsOpen) {s : State}
    (hs : s.constants = []) {σ : Store} {trace : List Node} {outcome : Option (Unit × Store)}
    (hrun : c.receives σ trace outcome) : trace = [] ∧ ∃ τ, outcome = some ((), τ) ∧
      State.Describes anyVariable { s with scope := c.scope scope } τ := by
  have hany : State.Describes anyVariable { s with scope } σ :=
    ⟨hs, fun name _ _ _ => .ofOpen (hopen name)⟩
  unfold Callable.receives at hrun
  unfold Callable.scope
  cases howner : c.owner with
  | none =>
      rw [howner] at hrun
      exact ⟨hrun.1, σ, hrun.2, hany⟩
  | some className =>
      rw [howner] at hrun
      exact ⟨hrun.1, _, hrun.2, hany.put "this" (.refl _)⟩

theorem sound_body (c : Callable) {scope : Scope} (hopen : scope.IsOpen)
    (hbody : Sound anyVariable (blockRuns c.body) (executeAll d c.body) Continues) :
    Sound noVariable (c.receives >>= fun _ => blockRuns c.body)
      (inScope (c.scope scope) (executeAll d c.body)) fun _ _ _ _ => True := by
  intro σ s _ u hs hx trace outcome hrun
  obtain ⟨t, hexecute, rfl⟩ := inScope_eq_ok_iff.mp hx
  rcases hrun with ⟨hstop, _⟩ | ⟨_, τ, first, rest, hfirst, hrest, rfl⟩
  · obtain ⟨_, _, hτ, _⟩ := describes_receiver c hopen hs.constants hstop
    cases hτ
  · obtain ⟨rfl, _, hτ, hdescribes⟩ := describes_receiver c hopen hs.constants hfirst
    cases hτ
    exact ⟨(hbody hdescribes hexecute hrest).1, fun _ _ _ => trivial⟩

theorem sound_call (c : Callable) (hadmits : Admits noVariable (listParts c.defaults))
    (hassigned : ∀ e ∈ c.defaults, e.assigned = [])
    (hbody : Sound anyVariable (blockRuns c.body) (executeAll d c.body) Continues) :
    Sound noVariable c.runs (c.analysis d) fun _ _ _ _ => True :=
  .bind (sound_arguments [] c.parameters (fun _ => rfl) hadmits hassigned)
    fun _ _ hopen => sound_body c hopen hbody

-- Whatever a call may reach has been told of.
def State.TellsCall (t : State) (c : Callable) : Prop :=
  ∀ trace outcome, c.runs .empty trace outcome → ∀ node ∈ trace, t.Tells node

theorem State.TellsCall.mono {s t : State} {c : Callable} (h : s.TellsCall c)
    (hst : s.events <:+ t.events) : t.TellsCall c :=
  fun trace outcome hrun node hnode => (h trace outcome hrun node hnode).mono hst

-- After the step the given calls have been told of.
def Eval.TellsCalls (x : Eval α) (calls : List Callable) : Prop :=
  ∀ s a t, s.constants = [] → x s = .ok a t → ∀ c ∈ calls, t.TellsCall c

namespace Eval.TellsCalls

variable {calls others : List Callable}

theorem nil {x : Eval α} : x.TellsCalls [] :=
  fun _ _ _ _ _ c hc => by cases hc

theorem append {x : Eval α} (h : x.TellsCalls calls) (h' : x.TellsCalls others) :
    x.TellsCalls (calls ++ others) := by
  intro s a t hs hx c hc
  rcases List.mem_append.mp hc with hc | hc
  · exact h s a t hs hx c hc
  · exact h' s a t hs hx c hc

theorem mono {x : Eval α} (h : x.TellsCalls calls) (hsub : others ⊆ calls) :
    x.TellsCalls others :=
  fun s a t hs hx c hc => h s a t hs hx c (hsub hc)

theorem before {x : Eval α} {f : α → Eval β} [∀ a, Grows (f a)] (h : x.TellsCalls calls) :
    (x >>= f).TellsCalls calls := by
  intro s b u hs hx c hc
  obtain ⟨a, t, hxt, hfu⟩ := bind_eq_ok_iff.mp hx
  exact (h s a t hs hxt c hc).mono (Grows.suffix hfu)

theorem after {x : Eval α} {f : α → Eval β} (hx : Keeps (Undeclared []) x)
    (h : ∀ a, (f a).TellsCalls calls) : (x >>= f).TellsCalls calls := by
  intro s b u hs hxf c hc
  obtain ⟨a, t, hxt, hfu⟩ := bind_eq_ok_iff.mp hxf
  have ht := hx s
  rw [after_of_ok hxt] at ht
  exact h a t b u (ht.trans hs) hfu c hc

theorem onBranch {x : Eval Unit} (h : x.TellsCalls calls) : (onBranch x).TellsCalls calls := by
  intro s _ u hs hx c hc
  obtain ⟨t, hxt, rfl⟩ := onBranch_eq_ok_iff.mp hx
  exact (h s () t hs hxt c hc).mono List.suffix_rfl

theorem inScope {x : Eval Unit} {scope : Scope} (h : x.TellsCalls calls) :
    (inScope scope x).TellsCalls calls := by
  intro s _ u hs hx c hc
  obtain ⟨t, hxt, rfl⟩ := inScope_eq_ok_iff.mp hx
  exact (h { s with scope } () t hs hxt c hc).mono List.suffix_rfl

end Eval.TellsCalls

theorem executeMethods_cons {className : String} {method : Method} {c : Callable}
    (h : method.callable? className = some c) (methods : List Method) :
    executeMethods d className (method :: methods) =
      (visit d (.method method) >>= fun _ => c.analysis d >>= fun _ =>
        executeMethods d className methods) := by
  obtain ⟨signature, modifiers, body, location⟩ := method
  cases body with
  | none => cases h
  | some body =>
      obtain ⟨statements, bodyLocation⟩ := body
      cases h
      have hscope (scope : Scope) : methodScope className modifiers scope =
          (if Modifier.Static ∈ modifiers then none else some className).elim scope
            fun className => scope.put "this" (.object className) := by
        unfold methodScope
        split <;> rfl
      rw [executeMethods]
      simp only [Callable.analysis, Callable.scope, bind_assoc, hscope]

-- The defaults of what is declared have no variables.
structure Callable.IsPlain (c : Callable) : Prop where
  defaults : Admits noVariable (listParts c.defaults)
  unassigned e : e ∈ c.defaults → e.assigned = []
  body part : part ∈ blockParts c.body → part.IsPlain

theorem undeclared_analysis {c : Callable} (hc : c.IsPlain) :
    Keeps (Undeclared []) (c.analysis d) :=
  (undeclared_effect d).keeps_bind (idle_parameterScope _ hc.unassigned).constants
    fun _ => (idle_body hc.body _).constants

theorem tellsCalls_analysis {c : Callable} (hc : c.IsPlain)
    (hbody : (executeAll d c.body).TellsCalls ((blockParts c.body).flatMap Stmt.callables)) :
    (c.analysis d).TellsCalls (c :: (blockParts c.body).flatMap Stmt.callables) := by
  have hcall := sound_call (d := d) c hc.defaults hc.unassigned (sound_executeAll c.body hc.body)
  have hinner : (c.analysis d).TellsCalls ((blockParts c.body).flatMap Stmt.callables) :=
    .after (idle_parameterScope _ hc.unassigned).constants fun _ => hbody.inScope
  intro s a t hs hx other hother
  rcases List.mem_cons.mp hother with rfl | hother
  · exact fun trace outcome hrun => (hcall ⟨hs, fun _ _ h => h.elim⟩ hx hrun).1
  · exact hinner s a t hs hx other hother

theorem Stmt.IsPlain.call {s : Stmt} (h : s.IsPlain) {c : Callable} (hc : c ∈ s.callables)
    (hbody : ∀ part ∈ blockParts c.body, part.IsPlain) : c.IsPlain := by
  have hsub : c.defaults ⊆ s.defaults := fun e he => List.mem_flatMap.mpr ⟨c, hc, he⟩
  have hdefaults := h.admits_defaults.mono (listParts_subset hsub)
  exact ⟨hdefaults, fun e he => h.unassigned e (hsub he), hbody⟩

mutual
theorem tellsCalls_execute : ∀ s : Stmt, (∀ part ∈ s.parts, part.IsPlain) →
    (execute d s).TellsCalls (s.parts.flatMap Stmt.callables)
  | .expr .., _ | .echo .., _ | .ret .., _ | .html _, _ | .constDecl .., _ | .invalid _, _ => .nil
  | .ifThen condition thenBranch _, h => by
      have hthen := tellsCalls_execute thenBranch fun part hp => h part (by simp [Stmt.parts, hp])
      rw [execute]
      refine .after (undeclared_evaluate d condition []) fun _ => ?_
      exact .after ((undeclared_effect d).keeps_visit _) fun _ => hthen.onBranch.before
  | .ifElse condition thenBranch elseBranch _, h => by
      have hplain : ∀ part ∈ thenBranch.parts, part.IsPlain :=
        fun part hp => h part (by simp [Stmt.parts, hp])
      have hthen := tellsCalls_execute thenBranch hplain
      have helse := tellsCalls_execute elseBranch fun part hp => h part (by simp [Stmt.parts, hp])
      rw [execute]
      simp only [Stmt.parts, List.flatMap_cons, List.flatMap_append, Stmt.callables,
        List.nil_append]
      refine .after (undeclared_evaluate d condition []) fun _ => ?_
      refine .after ((undeclared_effect d).keeps_visit _) fun _ => ?_
      refine .append hthen.onBranch.before (.after ?_ fun _ => helse.onBranch.before)
      exact (undeclared_effect d).keeps_onBranch (undeclared_execute hplain)
  | .loop condition body _, h => by
      have hbody := tellsCalls_execute body fun part hp => h part (by simp [Stmt.parts, hp])
      rw [execute]
      refine .after (fun _ => rfl) fun _ => .after (undeclared_evaluate d condition []) fun _ => ?_
      exact .after ((undeclared_effect d).keeps_visit _) fun _ => hbody.before
  | .block ⟨statements, _⟩, h => by
      rw [execute]
      refine .after ((undeclared_effect d).keeps_visit _) fun _ => ?_
      exact tellsCalls_executeAll statements fun part hp => h part (by simp [Stmt.parts, hp])
  | .functionDecl signature ⟨statements, bodyLocation⟩ location, h => by
      have hs := h (.functionDecl signature ⟨statements, bodyLocation⟩ location)
        (by simp [Stmt.parts])
      have hbody : ∀ part ∈ blockParts statements, part.IsPlain :=
        fun part hp => h part (by simp [Stmt.parts, hp])
      have hc : Callable.IsPlain ⟨signature.parameters, none, statements⟩ :=
        hs.call (by simp [Stmt.callables]) hbody
      rw [execute]
      exact .after ((undeclared_effect d).keeps_visit _) fun _ =>
        tellsCalls_analysis hc (tellsCalls_executeAll statements hbody)
  | .classDecl header methods location, h => by
      have hs := h (.classDecl header methods location) (by simp [Stmt.parts])
      rw [execute]
      refine .after ((undeclared_effect d).keeps_visit _) fun _ => ?_
      exact tellsCalls_executeMethods header.name.name methods
        (fun part hp => h part (by simp [Stmt.parts, hp])) fun c hc => hs.call hc

theorem tellsCalls_executeAll : ∀ ss : List Stmt, (∀ part ∈ blockParts ss, part.IsPlain) →
    (executeAll d ss).TellsCalls ((blockParts ss).flatMap Stmt.callables)
  | [], _ => .nil
  | s :: ss, h => by
      have hplain : ∀ part ∈ s.parts, part.IsPlain :=
        fun part hp => h part (by simp [blockParts, hp])
      have hss := tellsCalls_executeAll ss fun part hp => h part (by simp [blockParts, hp])
      rw [executeAll]
      simp only [blockParts, List.flatMap_append]
      exact .append (tellsCalls_execute s hplain).before
        (.after (undeclared_execute hplain) fun _ => hss)

theorem tellsCalls_executeMethods (className : String) : ∀ methods : List Method,
    (∀ part ∈ methodParts methods, part.IsPlain) →
    (∀ c ∈ methods.filterMap (Method.callable? className),
      (∀ part ∈ blockParts c.body, part.IsPlain) → c.IsPlain) →
    (executeMethods d className methods).TellsCalls
      (methods.filterMap (Method.callable? className) ++
        (methodParts methods).flatMap Stmt.callables)
  | [], _, _ => .nil
  | ⟨_, _, none, _⟩ :: methods, h, hcalls => by
      rw [executeMethods]
      exact .after ((undeclared_effect d).keeps_visit _) fun _ =>
        tellsCalls_executeMethods className methods h hcalls
  | ⟨signature, modifiers, some ⟨statements, bodyLocation⟩, location⟩ :: methods, h, hcalls => by
      have hbody : ∀ part ∈ blockParts statements, part.IsPlain :=
        fun part hp => h part (by simp [methodParts, hp])
      rw [executeMethods_cons rfl]
      simp only [List.filterMap_cons, Method.callable?, List.mem_cons, forall_eq_or_imp] at hcalls ⊢
      have hmethods := tellsCalls_executeMethods className methods
        (fun part hp => h part (by simp [methodParts, hp])) hcalls.2
      have hcall := tellsCalls_analysis (hcalls.1 hbody) (tellsCalls_executeAll statements hbody)
      refine .after ((undeclared_effect d).keeps_visit _) fun _ => ?_
      refine (hcall.before.append (.after (undeclared_analysis (hcalls.1 hbody))
        fun _ => hmethods)).mono ?_
      intro other hother
      simp only [methodParts, List.flatMap_append, List.mem_append, List.mem_cons] at hother ⊢
      grind
end

theorem runStatement_of_ok {s t : State} {statement : Stmt}
    (h : execute d statement s = .ok () t) : runStatement d s statement = t := by
  rw [runStatement, h]

theorem runStatement_events (s : State) (statement : Stmt) :
    s.events <:+ (runStatement d s statement).events := by
  have h := (inferInstance : Grows (execute d statement)).keeps [] s
  simp only [Grown, after] at h
  unfold runStatement
  cases he : execute d statement s <;> rw [he] at h <;> exact h

theorem runStatement_constants {s : State} {statement : Stmt}
    (hplain : ∀ part ∈ statement.parts, part.IsPlain) :
    (runStatement d s statement).constants = s.constants := by
  have h : Undeclared [] s ((execute d statement).after s) := undeclared_execute hplain s
  simp only [Undeclared, after] at h
  unfold runStatement
  cases he : execute d statement s <;> rw [he] at h <;> exact h

theorem run_events (s : State) (program : List Stmt) :
    s.events <:+ (run d s program).events := by
  induction program generalizing s with
  | nil => exact List.suffix_rfl
  | cons statement rest ih => exact (runStatement_events s statement).trans (ih _)

theorem run_tells {program : List Stmt} (hplain : ∀ part ∈ blockParts program, part.IsPlain)
    {s : State} {σ : Store} (hs : s.Describes anyVariable σ) {trace : List Node}
    {outcome : Option (Flow × Store)} (hrun : programRuns program σ trace outcome) :
    (∀ node ∈ trace, (run d s program).Tells node) ∧
      ∀ τ, outcome = some (.next, τ) → (run d s program).Describes anyVariable τ := by
  induction program generalizing s σ trace with
  | nil =>
      obtain ⟨rfl, rfl⟩ := hrun
      refine ⟨by simp, ?_⟩
      rintro τ ⟨⟩
      exact hs
  | cons statement rest ih =>
      have hstatement : ∀ part ∈ statement.parts, part.IsPlain :=
        fun part hp => hplain part (by simp [blockParts, hp])
      have hrest : ∀ part ∈ blockParts rest, part.IsPlain :=
        fun part hp => hplain part (by simp [blockParts, hp])
      rw [programRuns] at hrun
      cases hfault : statement.fault? with
      | some fault =>
          rw [hfault] at hrun
          obtain ⟨rfl, rfl⟩ := hrun
          exact ⟨by simp, by rintro τ ⟨⟩⟩
      | none =>
          rw [hfault] at hrun
          obtain ⟨t, ht⟩ := exists_execute_ok (d := d) hfault s
          have hgrow : t.events <:+ (run d t rest).events := run_events t rest
          have hsound := sound_execute statement hstatement hs ht
          simp only [run, List.foldl_cons, runStatement_of_ok ht]
          rcases hrun with ⟨hstop, rfl⟩ | ⟨flow, τ, first, others, hfirst, hothers, rfl⟩
          · refine ⟨fun node hnode => ((hsound hstop).1 node hnode).mono hgrow, ?_⟩
            rintro τ ⟨⟩
          · obtain ⟨htells, hnext⟩ := hsound hfirst
            cases flow with
            | returned =>
                obtain ⟨rfl, rfl⟩ := hothers
                rw [List.append_nil]
                exact ⟨fun node hnode => (htells node hnode).mono hgrow, by rintro τ ⟨⟩⟩
            | next =>
                obtain ⟨htells', hdescribes⟩ := ih hrest (hnext .next τ rfl rfl) hothers
                refine ⟨fun node hnode => ?_, hdescribes⟩
                rcases List.mem_append.mp hnode with h | h
                · exact (htells node h).mono hgrow
                · exact htells' node h

theorem run_tellsCall {program : List Stmt} (hplain : ∀ part ∈ blockParts program, part.IsPlain)
    {s : State} (hs : s.constants = []) {statement part : Stmt} (hmem : statement ∈ program)
    (hfault : statement.fault? = none) (hpart : part ∈ statement.parts) {c : Callable}
    (hc : c ∈ part.callables) : (run d s program).TellsCall c := by
  induction program generalizing s with
  | nil => cases hmem
  | cons first rest ih =>
      have hfirst : ∀ part ∈ first.parts, part.IsPlain :=
        fun part hp => hplain part (by simp [blockParts, hp])
      simp only [run, List.foldl_cons]
      rcases List.mem_cons.mp hmem with rfl | hmem
      · obtain ⟨t, ht⟩ := exists_execute_ok (d := d) hfault s
        rw [runStatement_of_ok ht]
        refine State.TellsCall.mono ?_ (run_events t rest)
        exact tellsCalls_execute statement hfirst s () t hs ht c
          (List.mem_flatMap.mpr ⟨part, hpart, hc⟩)
      · exact ih (fun part hp => hplain part (by simp [blockParts, hp]))
          ((runStatement_constants hfirst).trans hs) hmem

-- The analysis of a program has told of every node that some run of it reaches, with
-- operands that describe the values there, and at the end it describes the store. The
-- same goes for calls of whatever the analysed statements declare.
theorem analysis_covers_runs (d : Dispatcher) (program : List Stmt)
    (hplain : ∀ part ∈ blockParts program, part.IsPlain) :
    (∀ trace outcome, programRuns program .empty trace outcome →
      (∀ node ∈ trace, (run d {} program).Tells node) ∧
      ∀ σ, outcome = some (.next, σ) → (run d {} program).Describes anyVariable σ) ∧
    ∀ statement ∈ program, statement.fault? = none →
      ∀ part ∈ statement.parts, ∀ c ∈ part.callables, (run d {} program).TellsCall c := by
  refine ⟨fun trace outcome hrun => run_tells hplain ⟨rfl, fun _ _ _ _ => .ofOpen rfl⟩ hrun, ?_⟩
  intro statement hmem hfault part hpart c hc
  exact run_tellsCall hplain rfl hmem hfault hpart hc

-- A counter in a loop, and a function with a default.
def counterProgram : List Stmt :=
  let here : Location := ⟨"", 0, 1, 1, 1⟩
  let n : Expr := .var "n" here
  [.expr (.assign none n (.literal (.int 0) here) here) here,
    .loop (.binary .booleanAnd (.var "m" here) (.call ⟨"f", here⟩ [n] here) here here)
      (.expr (.assign (some .add) n (.literal (.int 1) here) here) here) here,
    .functionDecl ⟨⟨"f", here⟩, [⟨"a", some (.literal (.int 1) here), here⟩], none⟩
      ⟨[.ret (some (.unary .minus (.var "a" here) here here)) here], here⟩ here]

theorem counterProgram_gives : ∃ σ, (programRuns counterProgram).Gives .empty .next σ := by
  let here : Location := ⟨"", 0, 1, 1, 1⟩
  let zero : Datum := ⟨.int 0, rfl⟩
  let no : Datum := ⟨.bool false, rfl⟩
  have hzero : Gives (Expr.runs (.literal (.int 0) here)) .empty zero .empty :=
    .bind (gives_reach _) (gives_choose zero (.refl _))
  have hno (σ : Store) (h : σ.Holds "m" no) : Gives (Expr.runs (.var "m" here)) σ no σ :=
    .bind (gives_reach _) (gives_read no h)
  refine ⟨Store.empty.put "n" zero, ?_⟩
  refine .bind (.bind (.bind (gives_pure _) (.bind hzero (.bind (gives_reach _) (.bind
    (gives_pure _) (.bind (gives_write _ _) (gives_pure _)))))) (.bind (gives_reach _)
    (gives_pure _))) ?_
  refine .bind (.repeats (.bind (.bind (hno _ ?_) (.bind (gives_reach _) (gives_choose no
    (.refl _)))) (.bind (gives_reach _) (gives_pure _)))) ?_
  · rintro w ⟨⟩
  exact .bind (.bind (gives_reach _) (gives_pure _)) (gives_pure _)

theorem analysis_covers_counterProgram :
    (∃ σ, (programRuns counterProgram).Gives .empty .next σ) ∧
    (∀ part ∈ blockParts counterProgram, part.IsPlain) ∧
    (∀ trace outcome, programRuns counterProgram .empty trace outcome →
      (∀ node ∈ trace, (run {} {} counterProgram).Tells node) ∧
      ∀ σ, outcome = some (.next, σ) → (run {} {} counterProgram).Describes anyVariable σ) ∧
    ∀ statement ∈ counterProgram, statement.fault? = none →
      ∀ part ∈ statement.parts, ∀ c ∈ part.callables, (run {} {} counterProgram).TellsCall c := by
  have hplain : ∀ part ∈ blockParts counterProgram, part.IsPlain := by decide
  exact ⟨counterProgram_gives, hplain, analysis_covers_runs {} counterProgram hplain⟩

end PhpLint
