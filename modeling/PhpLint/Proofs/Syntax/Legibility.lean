import PhpLint.Proofs.Syntax.Precedence

namespace PhpLint.Syntax

open EStateM (bind_of_ok get_bind)
open PhpLint.Syntax.Parser

variable {nested : Nested} {k n : Nat} {tokens : List Token} {F : Token → Prop}

-- What an expression of the level may start with.
def StartsAt (k : Nat) (token : Token) : Prop :=
  startsExpression token = true ∧ (14 < k → startsOperand token = true)

theorem startsAt_of_startsOperand {token : Token} (h : startsOperand token = true) :
    StartsAt k token :=
  ⟨by unfold startsExpression; split <;> simp [h], fun _ => h⟩

theorem leads_operand {token : Token} (h : startsOperand token = true) :
    Leads (StartsAt k) (token :: tokens) :=
  ⟨token, tokens, rfl, startsAt_of_startsOperand h⟩

-- The tokens of an expression give it back at its own level. Where operators or accesses
-- make a chain, the next one is taken as if what is in front were one operand.
structure Legible (nested : Nested) (e : Expr) : Prop where
  reads : Reads (Ends e.level) (parserAt nested e.level) e.tokens (·.erase = e.erase)
  operation : ∀ table, levels[e.level]? = some (.operators table) →
    Loops (Ends (e.level + 1)) (parserAt nested e.level)
      (anotherOperation table (parserAt nested (e.level + 1))) e.tokens (·.erase = e.erase)
  access : e.level = 16 →
    Loops (Ends 17) (accesses nested) (anotherAccess nested) e.tokens (·.1.erase = e.erase)

-- An expression comes back from its tokens, however deep the nesting may go.
structure Recovers (e : Expr) : Prop where
  leads : Leads (StartsAt e.level) e.tokens
  legible : ∀ n, Legible (nestedAt n) e

theorem leads_enclosed {e : Expr} (h : Leads (StartsAt e.level) e.tokens) :
    Leads (StartsAt k) (enclosed (k ≤ e.level) e.tokens) := by
  unfold enclosed
  split
  · next hk =>
      simp only [decide_eq_true_eq] at hk
      exact h.imp fun token ⟨hstart, hplain⟩ => ⟨hstart, fun h => hplain (by omega)⟩
  · exact leads_operand rfl

theorem reads_primary {token : Token} {P : Expr → Prop} (htoken : endsOperand token = false)
    (h : ∀ location, Reads F (operandOf nested (token, location)) tokens P) :
    Reads F (primary nested) (token :: tokens) P := by
  intro s items rest hitems hrest hs
  obtain ⟨item, others, rfl, hcontent, hothers⟩ := spells_cons_iff.mp hitems
  have hpresent : missingOperand? s = .ok none s := by
    rw [missingOperand?, get_bind, hs]
    simp [Lexeme.token?, hcontent, Except.toOption, htoken, pure, EStateM.pure]
  rw [primary, bind_of_ok hpresent]
  exact reads_take h s _ rest hitems hrest hs

theorem primary_parenthesized {e : Expr}
    (h : Reads (Ends 0) nested.expression e.tokens (·.erase = e.erase)) :
    Reads F (primary nested) (parenthesized e.tokens) (·.erase = e.erase) := by
  refine reads_primary rfl fun location => ?_
  refine h.bind (fun l hl => by cases hl) fun e' he => ?_
  exact reads_expectSymbol (reads_pure he)

namespace Recovers

variable {e : Expr}

theorem reads_at_le (h : Recovers e) (hk : k ≤ e.level) :
    Reads (Ends k) (parserAt (nestedAt n) k) e.tokens (·.erase = e.erase) :=
  (h.legible n).reads.parserAt_le e.level_le
    (fun hlevel => h.leads.imp fun _ htoken => htoken.2 hlevel) hk

-- By cases on the depth that is left: without any, nothing is read.
theorem expression (h : Recovers e) :
    Reads (Ends 0) (nestedAt n).expression e.tokens (·.erase = e.erase) := by
  cases n with
  | zero => exact reads_tooDeep
  | succ n => exact h.reads_at_le (Nat.zero_le _)

theorem accesses_parenthesized (h : Recovers e) :
    Loops (Ends 17) (accesses (nestedAt n)) (anotherAccess (nestedAt n)) (parenthesized e.tokens)
      (·.1.erase = e.erase) :=
  loops_accesses (primary_parenthesized h.expression)

theorem reads_parenthesized (h : Recovers e) (hk : k ≤ 16) :
    Reads (Ends k) (parserAt (nestedAt n) k) (parenthesized e.tokens) (·.erase = e.erase) := by
  have hreads : Reads (Ends 16) (parserAt (nestedAt n) 16) (parenthesized e.tokens)
      (·.erase = e.erase) := Loops.reads_accesses h.accesses_parenthesized
  exact hreads.parserAt_le (Nat.le_refl _) (fun _ => ⟨_, _, rfl, rfl⟩) hk

theorem reads_at (h : Recovers e) (hk : k ≤ 16) :
    Reads (Ends k) (parserAt (nestedAt n) k) (enclosed (k ≤ e.level) e.tokens)
      (·.erase = e.erase) := by
  unfold enclosed
  split
  · next hbare => exact h.reads_at_le (by simpa using hbare)
  · exact h.reads_parenthesized hk

theorem operand (h : Recovers e) :
    Reads (Ends 14) (nestedAt n).operand (enclosed (14 ≤ e.level) e.tokens)
      (·.erase = e.erase) := by
  cases n with
  | zero => exact reads_tooDeep
  | succ n => exact h.reads_at (by decide)

theorem assigned (h : Recovers e) :
    Reads (Ends 3) (nestedAt n).assigned (enclosed (3 ≤ e.level) e.tokens) (·.erase = e.erase) := by
  cases n with
  | zero => exact reads_tooDeep
  | succ n => exact h.reads_at (by decide)

-- On the left of an operator of its own level an expression is a chain of them already.
theorem operation {table : List (Token × BinaryOp)} (h : Recovers e)
    (hlevel : levels[k]? = some (.operators table)) :
    Loops (Ends (k + 1)) (parserAt (nestedAt n) k)
      (anotherOperation table (parserAt (nestedAt n) (k + 1)))
      (enclosed (k ≤ e.level) e.tokens) (·.erase = e.erase) := by
  by_cases hk : k = e.level
  · subst hk
    simpa [enclosed] using (h.legible n).operation table hlevel
  · have henclosed : decide (k ≤ e.level) = decide (k + 1 ≤ e.level) := by
      simp only [decide_eq_decide]
      omega
    have hk' := lt_of_levels hlevel
    rw [henclosed, parserAt_operators hlevel]
    exact loops_operation (h.reads_at (by omega))

theorem accesses (h : Recovers e) :
    Loops (Ends 17) (accesses (nestedAt n)) (anotherAccess (nestedAt n))
      (enclosed (16 ≤ e.level) e.tokens) (·.1.erase = e.erase) := by
  unfold enclosed
  split
  · next hbare => exact (h.legible n).access (Nat.le_antisymm e.level_le (by simpa using hbare))
  · exact h.accesses_parenthesized

end Recovers

namespace Legible

variable {e : Expr}

theorem of_accesses (hlevel : e.level = 16)
    (h : Loops (Ends 17) (accesses nested) (anotherAccess nested) e.tokens (·.1.erase = e.erase)) :
    Legible nested e where
  reads := by
    rw [hlevel]
    exact Loops.reads_accesses h
  operation table htable := by
    rw [hlevel] at htable
    cases htable
  access _ := h

theorem of_primary (hlevel : e.level = 16)
    (h : Reads (Ends 17) (primary nested) e.tokens (·.erase = e.erase)) : Legible nested e :=
  of_accesses hlevel (loops_accesses h)

theorem of_reads (hlevel : e.level ∈ [3, 14, 15])
    (h : Reads (Ends e.level) (parserAt nested e.level) e.tokens (·.erase = e.erase)) :
    Legible nested e where
  reads := h
  operation table htable := by
    simp only [List.mem_cons, List.not_mem_nil, or_false] at hlevel
    rcases hlevel with hlevel | hlevel | hlevel <;> rw [hlevel] at htable <;> cases htable
  access h16 := by simp [h16] at hlevel

theorem of_operation {table : List (Token × BinaryOp)}
    (htable : levels[e.level]? = some (.operators table))
    (h : Loops (Ends (e.level + 1)) (parserAt nested e.level)
      (anotherOperation table (parserAt nested (e.level + 1))) e.tokens (·.erase = e.erase)) :
    Legible nested e where
  reads := by
    rw [parserAt_operators htable] at h ⊢
    exact h.reads_operation htable
  operation other hother := by
    obtain rfl : table = other := by
      rw [htable] at hother
      exact Level.operators.inj (Option.some.inj hother)
    exact h
  access h16 := by
    rw [h16] at htable
    cases htable

end Legible

section Operators

variable {left right e : Expr} {location opLocation : Location}

theorem recovers_binary {op : BinaryOp} (hop : op ≠ .power) (hleft : Recovers left)
    (hright : Recovers right) : Recovers (.binary op left right location opLocation) := by
  obtain ⟨table, hlevel, hlookup⟩ := exists_table hop
  have hlt := lt_of_levels hlevel
  have htokens : (Expr.binary op left right location opLocation).tokens =
      enclosed (op.level ≤ left.level) left.tokens ++
        op.token :: enclosed (op.level + 1 ≤ right.level) right.tokens := by
    rw [Expr.tokens, BinaryOp.leftLevel, BinaryOp.rightLevel, if_neg hop, if_neg hop]
  constructor
  · rw [htokens]
    exact (leads_enclosed hleft.leads).append
  · intro n
    refine Legible.of_operation hlevel ?_
    rw [htokens]
    refine (hleft.operation hlevel).next (ends_succ op.level?_token) fun left' hleft' => ?_
    refine reads_peek (G := (· = op.token)) rfl ?_
    rintro _ rfl
    rw [Option.bind_some, hlookup]
    refine reads_advance <| reads_last fun location => ?_
    refine (hright.reads_at (by omega)).bind_nil (fun _ h => h) fun right' hright' => ?_
    refine reads_checkHeight <| reads_pure ⟨_, rfl, ?_⟩
    simp [Expr.erase, hleft', hright']

theorem recovers_power (hleft : Recovers left) (hright : Recovers right) :
    Recovers (.binary .power left right location opLocation) := by
  constructor
  · have hleads := leads_enclosed (k := 16) hleft.leads
    exact hleads.append.imp fun _ h => ⟨h.1, fun _ => h.2 (by decide)⟩
  · intro n
    refine Legible.of_reads (by simp [Expr.level, BinaryOp.level]) ?_
    have hbase : Reads (Ends 16) (accesses (nestedAt n)) _ _ := hleft.reads_at (k := 16) (by decide)
    refine hbase.bind (ends_succ rfl) fun left' hleft' => ?_
    refine reads_skip <| reads_last fun location => ?_
    refine hright.operand.bind_nil (fun _ h => h.unary) fun right' hright' => ?_
    refine reads_pure ?_
    simp [Expr.erase, hleft', hright']

theorem recovers_unary {op : UnaryOp} (h : Recovers e) :
    Recovers (.unary op e location opLocation) := by
  have hop : unaryOp? op.token = some op := by cases op <;> rfl
  constructor
  · refine ⟨_, _, rfl, ?_, fun h => absurd h (Nat.lt_irrefl 14)⟩
    cases op <;> rfl
  · intro n
    refine Legible.of_reads (by simp [Expr.level]) ?_
    refine reads_peek (G := (· = op.token)) rfl ?_
    rintro _ rfl
    simp only [Option.bind_some, hop]
    split
    · next heq => cases op <;> cases heq
    · refine reads_advance <| reads_last fun location => ?_
      refine h.operand.bind_nil (fun _ h => h) fun e' he => ?_
      exact reads_pure (by simp [Expr.erase, he])

theorem recovers_cast {type : CastType} (h : Recovers e) : Recovers (.cast type e location) := by
  constructor
  · exact ⟨_, _, rfl, rfl, fun h => absurd h (Nat.lt_irrefl 14)⟩
  · intro n
    refine Legible.of_reads (by simp [Expr.level]) ?_
    refine reads_peek (G := (· = .cast type)) rfl ?_
    rintro _ rfl
    refine reads_advance <| reads_last fun location => ?_
    refine h.operand.bind_nil (fun _ h => h) fun e' he => ?_
    exact reads_pure (by simp [Expr.erase, he])

theorem level_of_isPlace (h : e.isPlace = true) : e.level = 16 := by
  unfold Expr.isPlace at h
  split at h <;> first | rfl | cases h

theorem leads_target (h : Recovers e) : Leads (StartsAt 3) (enclosed e.isPlace e.tokens) := by
  unfold enclosed
  split
  · exact h.leads.imp fun _ htoken => ⟨htoken.1, fun h => absurd h (by decide)⟩
  · exact leads_operand rfl

theorem reads_target (h : Recovers e) :
    Reads (Ends 4) (parserAt (nestedAt n) 4) (enclosed e.isPlace e.tokens) (·.erase = e.erase) := by
  unfold enclosed
  split
  · next hplace => exact h.reads_at_le (by rw [level_of_isPlace hplace]; decide)
  · exact h.reads_parenthesized (by decide)

theorem lookup_assignmentToken {op : Option BinaryOp} {token : Token}
    (h : assignmentToken? op = some token) : assignmentTable.lookup token = some op := by
  unfold assignmentToken? at h
  split at h <;> cases h <;> decide

theorem level?_assignmentToken {op : Option BinaryOp} {token : Token}
    (h : assignmentToken? op = some token) : token.level? = some 3 := by
  unfold assignmentToken? at h
  split at h <;> cases h <;> rfl

theorem recovers_assign {op : Option BinaryOp} (hop : (assignmentToken? op).isSome = true)
    (htarget : Recovers left) (hvalue : Recovers right) :
    Recovers (.assign op left right location) := by
  obtain ⟨token, htoken⟩ := Option.isSome_iff_exists.mp hop
  constructor
  · exact (leads_target htarget).append
  · intro n
    refine Legible.of_reads (by simp [Expr.level]) ?_
    rw [Expr.tokens, htoken, Option.getD_some]
    refine (reads_target htarget).bind (ends_succ (level?_assignmentToken htoken))
      fun target htarget' => ?_
    refine reads_peek (G := (· = token)) rfl fun _ htoken' => ?_
    rw [Option.bind_some, htoken', lookup_assignmentToken htoken]
    refine reads_advance <| reads_skip_other ?_ ?_
    · have hleads := leads_enclosed (k := 3) hvalue.leads
      exact (hleads.imp fun _ h => ne_of_startsExpression h.1 rfl).starts
    · refine hvalue.assigned.bind_nil (fun _ h => h) fun value hvalue' => ?_
      refine reads_checkHeight <| reads_pure ?_
      simp [Expr.erase, htarget', hvalue']

end Operators

end PhpLint.Syntax
