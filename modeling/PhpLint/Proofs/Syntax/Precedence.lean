import PhpLint.Proofs.Syntax.Reading

namespace PhpLint

-- The level at which a token goes on with the expression in front of it. A name goes on
-- with its arguments or its member at the last one.
def Token.level? : Token → Option Nat
  | .keyword .Or => some 0
  | .keyword .Xor => some 1
  | .keyword .And => some 2
  | .symbol .assign | .symbol .plusAssign | .symbol .minusAssign | .symbol .timesAssign
  | .symbol .divideAssign | .symbol .moduloAssign | .symbol .dotAssign => some 3
  | .symbol .doublePipe => some 4
  | .symbol .doubleAmpersand => some 5
  | .symbol .pipe => some 6
  | .symbol .caret => some 7
  | .symbol .ampersand => some 8
  | .symbol .equals | .symbol .notEquals | .symbol .identical | .symbol .notIdentical
  | .symbol .spaceship => some 9
  | .symbol .less | .symbol .lessEquals | .symbol .greater | .symbol .greaterEquals => some 10
  | .symbol .shiftLeft | .symbol .shiftRight => some 11
  | .symbol .plus | .symbol .minus | .symbol .dot => some 12
  | .symbol .times | .symbol .divide | .symbol .modulo => some 13
  | .symbol .power => some 15
  | .symbol .arrow | .symbol .bracketLeft => some 16
  | .symbol .parenLeft | .symbol .doubleColon => some 17
  | _ => none

theorem BinaryOp.level?_token (op : BinaryOp) : op.token.level? = some op.level := by
  cases op <;> rfl

namespace Syntax

open PhpLint.Syntax.Parser

variable {nested : Nested} {k l : Nat} {tokens : List Token} {token : Token} {e : Expr}

-- In front of the token ends an expression that is read at the level.
def Ends (k : Nat) (token : Token) : Prop :=
  ∀ l, token.level? = some l → l < k

theorem Ends.mono (h : Ends k token) (hkl : k ≤ l) : Ends l token :=
  fun j hj => Nat.lt_of_lt_of_le (h j hj) hkl

theorem ends_succ {l : Nat} (h : token.level? = some l) : Ends (l + 1) token := by
  intro j hj
  rw [h] at hj
  cases hj
  exact Nat.lt_succ_self l

-- No token goes on with an expression at the level of the unary operators.
theorem Ends.unary (h : Ends 15 token) : Ends 14 token := by
  intro l hl
  have hne : token.level? ≠ some 14 := by
    unfold Token.level?
    split <;> simp
  have hlt := h l hl
  have : l ≠ 14 := fun h14 => hne (h14 ▸ hl)
  omega

theorem Ends.ne {other : Token} (h : Ends k token) (hother : other.level? = some l) (hkl : k ≤ l) :
    token ≠ other := by
  rintro rfl
  exact Nat.not_lt.mpr hkl (h l hother)

-- The tokens with which an operand starts that is no operation on another one.
def startsOperand : Token → Bool
  | .symbol .parenLeft | .symbol .bracketLeft | .keyword .New | .keyword .Static
  | .var _ | .identifier _ | .int _ | .float _ | .bool _ | .null | .string _ _ => true
  | _ => false

def startsExpression : Token → Bool
  | .cast _ => true
  | token => startsOperand token || (unaryOp? token).isSome

theorem ne_of_startsExpression {other : Token} (h : startsExpression token = true)
    (hother : startsExpression other = false) : token ≠ other := by
  rintro rfl
  cases h.symm.trans hother

theorem unaryOp?_of_startsOperand (h : startsOperand token = true) : unaryOp? token = none := by
  cases token with
  | symbol symbol => cases symbol <;> first | rfl | cases h
  | _ => rfl

-- The parser for expressions whose operators bind at least as tight as the level.
def parserAt (nested : Nested) (k : Nat) : Parser Expr :=
  if k ≤ 14 then climb nested (levels.drop k)
  else if k = 15 then power nested
  else accesses nested

theorem lt_of_levels {level : Level} (h : levels[k]? = some level) : k < 14 :=
  (List.getElem?_eq_some_iff.mp h).choose

def Level.operatorTokens : Level → List Token
  | .assignments => assignmentTable.map Prod.fst
  | .operators table => table.map Prod.fst

theorem level?_of_mem_operatorTokens {level : Level} (hlevel : levels[k]? = some level)
    (h : token ∈ level.operatorTokens) : token.level? = some k := by
  have htokens : ∀ k < levels.length, ∀ level ∈ levels[k]?, ∀ token ∈ level.operatorTokens,
      token.level? = some k := by decide
  exact htokens k (lt_of_levels hlevel) level hlevel token h

theorem lookup_eq_none {γ : Type} {table : List (Token × γ)} (hk : Ends k token)
    (htable : ∀ other ∈ table.map Prod.fst, other.level? = some k) :
    table.lookup token = none := by
  rw [List.lookup_eq_none_iff]
  intro entry hentry
  exact bne_iff_ne.mpr (hk.ne (htable _ (List.mem_map_of_mem hentry)) (Nat.le_refl k))

theorem exists_table {op : BinaryOp} (h : op ≠ .power) :
    ∃ table, levels[op.level]? = some (.operators table) ∧ table.lookup op.token = some op := by
  cases op <;> first | exact ⟨_, rfl, by decide⟩ | contradiction

theorem parserAt_eq_climb (hk : k ≤ 14) : parserAt nested k = climb nested (levels.drop k) :=
  if_pos hk

theorem parserAt_of_level {level : Level} (h : levels[k]? = some level) :
    parserAt nested k = climb nested (level :: levels.drop (k + 1)) := by
  obtain ⟨hk, rfl⟩ := List.getElem?_eq_some_iff.mp h
  rw [parserAt_eq_climb (Nat.le_of_lt hk), List.drop_eq_getElem_cons hk]

theorem parserAt_operators {table : List (Token × BinaryOp)}
    (h : levels[k]? = some (.operators table)) :
    parserAt nested k = operation table (parserAt nested (k + 1)) := by
  rw [parserAt_of_level h, climb, parserAt_eq_climb (lt_of_levels h)]

theorem parserAt_assignments (h : levels[k]? = some .assignments) :
    parserAt nested k = assignment nested (parserAt nested (k + 1)) := by
  rw [parserAt_of_level h, climb, parserAt_eq_climb (lt_of_levels h)]

theorem operation_eq (table : List (Token × BinaryOp)) (operand : Parser Expr) :
    operation table operand = operand >>= iterate (anotherOperation table operand) := rfl

theorem accesses_eq (nested : Nested) :
    accesses nested =
      primary nested >>= fun first => iterate (anotherAccess nested) (first, first.height) := rfl

section Descent

variable {P : Expr → Prop} {table : List (Token × BinaryOp)} {operand : Parser Expr}

theorem loops_operation (h : Reads (Ends (k + 1)) operand tokens P) :
    Loops (Ends (k + 1)) (operation table operand) (anotherOperation table operand) tokens P := by
  rw [operation_eq]
  exact h.loops fun _ he => he

theorem Loops.reads_operation (hlevel : levels[k]? = some (.operators table))
    (h : Loops (Ends (k + 1)) (operation table operand) (anotherOperation table operand) tokens P) :
    Reads (Ends k) (operation table operand) tokens P := by
  refine h.exit_nil (fun _ h => h.mono (by omega)) fun left hleft => ?_
  refine reads_peek (fun _ h => h) fun token htoken => ?_
  rw [Option.bind_some, lookup_eq_none htoken fun _ => level?_of_mem_operatorTokens hlevel]
  exact reads_pure ⟨left, rfl, hleft⟩

theorem loops_accesses (h : Reads (Ends 17) (primary nested) tokens P) :
    Loops (Ends 17) (accesses nested) (anotherAccess nested) tokens fun state => P state.1 := by
  rw [accesses_eq]
  exact h.loops fun _ he => he

theorem Loops.reads_accesses
    (h : Loops (Ends 17) (accesses nested) (anotherAccess nested) tokens fun state => P state.1) :
    Reads (Ends 16) (accesses nested) tokens P := by
  refine h.exit_nil (fun _ h => h.mono (by omega)) fun ⟨object, height⟩ hobject => ?_
  simp only [anotherAccess, access?, bind_assoc]
  refine reads_skip_other (fun _ h => h.ne rfl (by decide)) ?_
  simp only [Bool.false_eq_true, if_false, bind_assoc]
  refine reads_skip_other (fun _ h => h.ne rfl (by decide)) ?_
  exact reads_pure ⟨object, rfl, hobject⟩

theorem reads_power (h : Reads (Ends 16) (accesses nested) tokens P) :
    Reads (Ends 15) (power nested) tokens P := by
  refine h.bind_nil (fun _ h => h.mono (by omega)) fun e he => ?_
  refine reads_skip_other (fun _ h => h.ne rfl (by decide)) ?_
  exact reads_pure he

theorem reads_unary (hleads : Leads (startsOperand ·) tokens)
    (h : Reads (Ends 15) (power nested) tokens P) : Reads (Ends 14) (unary nested) tokens P := by
  refine reads_peek hleads.starts fun token htoken => ?_
  simp only [Option.bind_some, unaryOp?_of_startsOperand htoken]
  split
  · cases ‹some token = _›
    cases htoken
  · exact h.imp fun _ h => h.mono (by omega)

theorem reads_assignment (hlevel : levels[k]? = some .assignments)
    (h : Reads (Ends (k + 1)) operand tokens P) :
    Reads (Ends k) (assignment nested operand) tokens P := by
  refine h.bind_nil (fun _ h => h.mono (by omega)) fun e he => ?_
  refine reads_peek (fun _ h => h) fun token htoken => ?_
  rw [Option.bind_some, lookup_eq_none htoken fun _ => level?_of_mem_operatorTokens hlevel]
  exact reads_pure he

-- What is read at a level is read at the one below it, where the same token ends it.
theorem reads_descend (hk : k ≤ 15) (hleads : k = 14 → Leads (startsOperand ·) tokens)
    (h : Reads (Ends (k + 1)) (parserAt nested (k + 1)) tokens P) :
    Reads (Ends k) (parserAt nested k) tokens P := by
  cases hlevel : levels[k]? with
  | some level =>
      cases level with
      | assignments =>
          rw [parserAt_assignments hlevel]
          exact reads_assignment hlevel h
      | operators table =>
          rw [parserAt_operators hlevel]
          exact (loops_operation h).reads_operation hlevel
  | none =>
      have hge : 14 ≤ k := List.getElem?_eq_none_iff.mp hlevel
      obtain rfl | rfl : k = 14 ∨ k = 15 := by omega
      · exact reads_unary (hleads rfl) h
      · exact reads_power h

theorem Reads.parserAt_le (h : Reads (Ends l) (parserAt nested l) tokens P) (hl : l ≤ 16)
    (hleads : 14 < l → Leads (startsOperand ·) tokens) (hkl : k ≤ l) :
    Reads (Ends k) (parserAt nested k) tokens P := by
  induction l with
  | zero =>
      obtain rfl : k = 0 := by omega
      exact h
  | succ l ih =>
      rcases Nat.eq_or_lt_of_le hkl with rfl | hlt
      · exact h
      · have hl' := reads_descend (by omega) (fun h => hleads (by omega)) h
        exact ih hl' (by omega) (fun h => hleads (by omega)) (by omega)

end Descent

end Syntax

end PhpLint
