import PhpLint.Proofs.Syntax.Legibility
import PhpLint.Proofs.Syntax.Movement

namespace PhpLint.Syntax

open PhpLint.Syntax.Parser

variable {k n : Nat} {tokens : List Token} {F : Token → Prop} {location : Location}
  {closing : Symbol}

section Lists

def closings : List Symbol := [.parenRight, .bracketRight]

theorem ends_of_closings {token : Token} (hclosing : closing ∈ closings)
    (h : token ∈ [.symbol .comma, .symbol closing]) : Ends 0 token := by
  simp only [closings, List.mem_cons, List.not_mem_nil, or_false] at hclosing h
  rcases hclosing with rfl | rfl <;> rcases h with rfl | rfl <;> exact fun _ hl => by cases hl

theorem startsExpression_closing (hclosing : closing ∈ closings) :
    startsExpression (.symbol closing) = false := by
  simp only [closings, List.mem_cons, List.not_mem_nil, or_false] at hclosing
  rcases hclosing with rfl | rfl <;> rfl

theorem Recovers.listed {e : Expr} (h : Recovers e) (hclosing : closing ∈ closings) :
    Listed closing (nestedAt n).expression e.tokens (·.erase = e.erase) where
  reads := h.expression.imp fun _ => ends_of_closings hclosing
  leads := h.leads.imp fun _ htoken =>
    ne_of_startsExpression htoken.1 (startsExpression_closing hclosing)

theorem reads_arguments {arguments : List Expr} (h : ∀ e ∈ arguments, Recovers e) :
    Reads F (Syntax.arguments (nestedAt n)) (parenthesized (commas (listTokens arguments)))
      (eraseAll · = eraseAll arguments) := by
  rw [listTokens_eq_map]
  refine reads_advance ?_
  have hthings := reads_separated Expr.tokens Expr.erase (by decide) fun e he =>
    (h e he).listed (n := n) (by decide : .parenRight ∈ closings)
  refine hthings.bind rfl fun arguments' harguments => ?_
  refine reads_expectSymbol <| reads_pure ?_
  simpa only [eraseAll_eq_map] using harguments

def RecoversItem (item : ArrayItem) : Prop :=
  ∀ closing ∈ closings, ∀ n,
    Listed closing (arrayItem (nestedAt n)) item.tokens (·.erase = item.erase)

theorem recoversItem_plain {value : Expr} (h : Recovers value) : RecoversItem (.plain value) := by
  intro closing hclosing n
  refine ⟨?_, (h.listed (n := n) hclosing).leads⟩
  refine (h.listed hclosing).reads.bind_nil (fun _ h => h) fun value' hvalue => ?_
  refine reads_skip_other (fun token htoken => ?_) <| reads_pure (by simp [ArrayItem.erase, hvalue])
  simp only [closings, List.mem_cons, List.not_mem_nil, or_false] at hclosing htoken
  rcases hclosing with rfl | rfl <;> rcases htoken with rfl | rfl <;> decide

theorem recoversItem_keyed {key value : Expr} (hkey : Recovers key) (hvalue : Recovers value) :
    RecoversItem (.keyed key value) := by
  intro closing hclosing n
  refine ⟨?_, (hkey.listed (n := n) hclosing).leads.append⟩
  refine hkey.expression.bind (fun _ hl => by cases hl) fun key' hkey' => ?_
  refine reads_skip ?_
  refine (hvalue.listed hclosing).reads.bind_nil (fun _ h => h) fun value' hvalue' => ?_
  exact reads_pure (by simp [ArrayItem.erase, hkey', hvalue'])

theorem reads_arrayItems {items : List ArrayItem} (hclosing : closing ∈ closings)
    (h : ∀ item ∈ items, RecoversItem item) :
    Reads F (arrayItems (nestedAt n) closing) (commas (itemTokens items) ++ [.symbol closing])
      (eraseItems · = eraseItems items) := by
  have hcomma : closing ≠ .comma := by
    rintro rfl
    exact absurd hclosing (by decide)
  rw [itemTokens_eq_map]
  have hthings := reads_separated ArrayItem.tokens ArrayItem.erase hcomma fun item hitem =>
    h item hitem closing hclosing n
  refine hthings.bind rfl fun items' hitems => ?_
  refine reads_expectSymbol <| reads_pure ?_
  simpa only [eraseItems_eq_map] using hitems

end Lists

section Names

variable {name : String}

-- A name starts an array where it is followed by a parenthesis, and else what its rest says.
theorem reads_name {nested : Nested} {P : Expr → Prop}
    (harray : name.toLower = "array" → Starts (· ≠ .symbol .parenLeft) tokens F)
    (h : ∀ location, Reads F (restOfName nested ⟨name, location⟩) tokens P) :
    Reads F (primary nested) (nameToken name :: tokens) P := by
  unfold nameToken
  split
  · next hstatic =>
      subst hstatic
      exact reads_primary rfl h
  · refine reads_primary rfl fun location => ?_
    rw [operandOf_identifier]
    split
    · next hname => exact reads_skip_other (harray (beq_iff_eq.mp hname)) (h location)
    · exact h location

theorem startsOperand_nameToken : startsOperand (nameToken name) = true := by
  unfold nameToken
  split <;> rfl

theorem leads_constantTokens : Leads (StartsAt k) (constantTokens name) := by
  unfold constantTokens
  split <;> exact leads_operand startsOperand_nameToken

theorem recovers_constant : Recovers (.constant name location) := by
  refine ⟨leads_constantTokens, fun n => .of_primary rfl ?_⟩
  rw [Expr.tokens, constantTokens]
  split
  · next owner member hsplit =>
      refine reads_name (fun _ => by simp [Starts]) fun location => ?_
      unfold restOfName
      refine reads_isNext_other (by simp [Starts]) <| reads_skip ?_
      refine reads_identifier fun location => ?_
      refine reads_isNext_other (fun _ h => h.ne rfl (by decide)) <| reads_pure ?_
      simp [Expr.erase, ofList_append_splitMember hsplit]
  · refine reads_name (fun _ _ h => h.ne rfl (by decide)) fun location => ?_
    unfold restOfName
    refine reads_isNext_other (fun _ h => h.ne rfl (by decide)) ?_
    refine reads_skip_other (fun _ h => h.ne rfl (by decide)) ?_
    exact reads_pure rfl

end Names

section Operands

variable {name owner method : Identifier} {arguments : List Expr} {items : List ArrayItem}

theorem recovers_literal {value : Literal} : Recovers (.literal value location) := by
  have hstart : startsOperand value.token = true := by cases value <;> rfl
  refine ⟨leads_operand hstart, fun n => .of_primary rfl ?_⟩
  cases value <;> exact reads_primary rfl fun location => reads_pure rfl

theorem recovers_var {name : String} : Recovers (.var name location) :=
  ⟨leads_operand rfl,
    fun _ => .of_primary rfl (reads_primary rfl fun _ => reads_pure rfl)⟩

theorem recovers_array {style : ArrayStyle} (h : ∀ item ∈ items, RecoversItem item) :
    Recovers (.array items style location) := by
  cases style with
  | long =>
      refine ⟨leads_operand rfl, fun n => .of_primary rfl ?_⟩
      have harray : "array".toLower = "array" := by decide +kernel
      refine reads_primary rfl fun location => ?_
      rw [operandOf_identifier, harray, beq_self_eq_true, if_pos rfl]
      refine reads_skip ?_
      refine (reads_arrayItems (by decide) h).bind_nil (fun _ h => h) fun items' hitems => ?_
      exact reads_last fun _ => reads_pure (by simp [Expr.erase, hitems])
  | short =>
      refine ⟨leads_operand rfl, fun n => .of_primary rfl ?_⟩
      refine reads_primary rfl fun location => ?_
      refine (reads_arrayItems (by decide) h).bind_nil (fun _ h => h) fun items' hitems => ?_
      exact reads_last fun _ => reads_pure (by simp [Expr.erase, hitems])

theorem recovers_call (hname : name.name.toLower ≠ "array") (h : ∀ e ∈ arguments, Recovers e) :
    Recovers (.call name arguments location) := by
  refine ⟨leads_operand startsOperand_nameToken, fun n => .of_primary rfl ?_⟩
  refine reads_name (fun harray => absurd harray hname) fun location => ?_
  unfold restOfName
  refine reads_isNext rfl ?_
  refine (reads_arguments h).bind_nil (fun _ h => h) fun arguments' harguments => ?_
  exact reads_last fun _ => reads_pure (by simp [Expr.erase, Identifier.erase, harguments])

theorem recovers_staticCall (h : ∀ e ∈ arguments, Recovers e) :
    Recovers (.staticCall owner method arguments location) := by
  refine ⟨leads_operand startsOperand_nameToken, fun n => .of_primary rfl ?_⟩
  refine reads_name (fun _ => by simp [Starts]) fun location => ?_
  unfold restOfName
  refine reads_isNext_other (by simp [Starts]) <| reads_skip ?_
  refine reads_identifier fun location => reads_isNext rfl ?_
  refine (reads_arguments h).bind_nil (fun _ h => h) fun arguments' harguments => ?_
  exact reads_last fun _ => reads_pure (by simp [Expr.erase, Identifier.erase, harguments])

theorem reads_ownerName {name : String} :
    Reads F ownerName [nameToken name] (·.name = name) := by
  unfold nameToken
  split
  · next hstatic => exact reads_skip <| reads_last fun _ => reads_pure hstatic.symm
  · refine reads_skip_other (by simp [Starts]) ?_
    rw [← bind_pure (identifier _)]
    exact reads_identifier fun _ => reads_pure rfl

theorem recovers_new (h : ∀ e ∈ arguments, Recovers e) :
    Recovers (.new owner arguments location) := by
  refine ⟨leads_operand rfl, fun n => .of_primary rfl ?_⟩
  refine reads_primary rfl fun location => ?_
  have hname : Reads (fun _ => True) ownerName [nameToken owner.name] _ := reads_ownerName
  refine hname.bind trivial fun owner' howner => ?_
  refine reads_isNext rfl ?_
  refine (reads_arguments h).bind_nil (fun _ h => h) fun arguments' harguments => ?_
  exact reads_last fun _ => reads_pure (by simp [Expr.erase, Identifier.erase, howner, harguments])

end Operands

section Accesses

variable {object index : Expr} {name : Identifier} {arguments : List Expr}

-- An access that is read in front of what follows makes one more round.
theorem recovers_access {e : Expr} {token : Token} (hlevel : e.level = 16)
    (htoken : token.level? = some 16) (hobject : Recovers object)
    (htokens : e.tokens = enclosed (16 ≤ object.level) object.tokens ++ token :: tokens)
    (haccess : ∀ n object', object'.erase = object.erase →
      Reads (Ends 17) (access? (nestedAt n) object') (token :: tokens)
        fun result => ∃ e', result = some e' ∧ e'.erase = e.erase) : Recovers e := by
  constructor
  · rw [hlevel, htokens]
    exact (leads_enclosed hobject.leads).append
  · intro n
    refine .of_accesses hlevel ?_
    rw [htokens]
    refine hobject.accesses.next (ends_succ htoken) fun ⟨object', height⟩ hobject' => ?_
    refine (haccess n object' hobject').bind_nil (fun _ h => h) ?_
    rintro _ ⟨e', rfl, he⟩
    exact reads_checkHeight <| reads_pure ⟨_, rfl, he⟩

theorem recovers_methodCall (hobject : Recovers object) (h : ∀ e ∈ arguments, Recovers e) :
    Recovers (.methodCall object name arguments location) := by
  refine recovers_access rfl rfl hobject rfl fun n object' hobject' => ?_
  refine reads_skip <| .bind_nil ?_ (fun _ h => h) fun _ he => reads_pure ⟨_, rfl, he⟩
  refine reads_identifier fun location => reads_isNext rfl ?_
  refine (reads_arguments h).bind_nil (fun _ h => h) fun arguments' harguments => ?_
  refine reads_last fun _ => reads_pure ?_
  simp [Expr.erase, Identifier.erase, hobject', harguments]

theorem recovers_property (hobject : Recovers object) :
    Recovers (.property object name location) := by
  refine recovers_access rfl rfl hobject rfl fun n object' hobject' => ?_
  refine reads_skip <| .bind_nil ?_ (fun _ h => h) fun _ he => reads_pure ⟨_, rfl, he⟩
  refine reads_identifier fun location => ?_
  refine reads_isNext_other (fun _ h => h.ne rfl (by decide)) <| reads_pure ?_
  simp [Expr.erase, Identifier.erase, hobject']

theorem recovers_element (hcontainer : Recovers object) (hindex : Recovers index) :
    Recovers (.element object index location) := by
  refine recovers_access rfl rfl hcontainer rfl fun n object' hobject' => ?_
  refine reads_skip_other (by simp [Starts]) <| reads_skip <|
    .bind_nil ?_ (fun _ h => h) fun _ he => reads_pure ⟨_, rfl, he⟩
  refine reads_skip_other ?_ ?_
  · exact (hindex.leads.imp fun _ h => ne_of_startsExpression h.1 rfl).append.starts
  · refine hindex.expression.bind (fun _ hl => by cases hl) fun index' hindex' => ?_
    refine reads_expectSymbol <| reads_last fun _ => reads_pure ?_
    simp [Expr.erase, hobject', hindex']

theorem recovers_slot (hcontainer : Recovers object) : Recovers (.slot object location) := by
  refine recovers_access rfl rfl hcontainer rfl fun n object' hobject' => ?_
  refine reads_skip_other (by simp [Starts]) <| reads_skip <|
    .bind_nil ?_ (fun _ h => h) fun _ he => reads_pure ⟨_, rfl, he⟩
  exact reads_skip <| reads_last fun _ => reads_pure (by simp [Expr.erase, hobject'])

end Accesses

-- By induction on the expression, one construct at a time.
mutual
theorem recovers : ∀ e : Expr, e.isPrintable = true → Recovers e
  | .literal .., _ => recovers_literal
  | .var .., _ => recovers_var
  | .constant .., _ => recovers_constant
  | .assign _ target value _, h => by
      simp only [Expr.isPrintable, Bool.and_eq_true] at h
      exact recovers_assign h.1.1 (recovers target h.1.2) (recovers value h.2)
  | .binary op left right _ _, h => by
      simp only [Expr.isPrintable, Bool.and_eq_true] at h
      have hleft := recovers left h.1
      have hright := recovers right h.2
      by_cases hop : op = .power
      · subst hop
        exact recovers_power hleft hright
      · exact recovers_binary hop hleft hright
  | .unary _ operand _ _, h => recovers_unary (recovers operand h)
  | .cast _ operand _, h => recovers_cast (recovers operand h)
  | .array items _ _, h => recovers_array (recoversItems items h)
  | .call _ arguments _, h => by
      simp only [Expr.isPrintable, Bool.and_eq_true, bne_iff_ne] at h
      exact recovers_call h.1 (recoversAll arguments h.2)
  | .methodCall object _ arguments _, h => by
      simp only [Expr.isPrintable, Bool.and_eq_true] at h
      exact recovers_methodCall (recovers object h.1) (recoversAll arguments h.2)
  | .staticCall _ _ arguments _, h => recovers_staticCall (recoversAll arguments h)
  | .new _ arguments _, h => recovers_new (recoversAll arguments h)
  | .property object _ _, h => recovers_property (recovers object h)
  | .element container index _, h => by
      simp only [Expr.isPrintable, Bool.and_eq_true] at h
      exact recovers_element (recovers container h.1) (recovers index h.2)
  | .slot container _, h => recovers_slot (recovers container h)
  | .interpolated _, h | .invalid _, h => by cases h

theorem recoversItem : ∀ item : ArrayItem, item.isPrintable = true → RecoversItem item
  | .plain value, h => recoversItem_plain (recovers value h)
  | .keyed key value, h => by
      simp only [ArrayItem.isPrintable, Bool.and_eq_true] at h
      exact recoversItem_keyed (recovers key h.1) (recovers value h.2)

theorem recoversAll : ∀ es : List Expr, arePrintable es = true → ∀ e ∈ es, Recovers e
  | [], _ => by simp
  | e :: es, h => by
      simp only [arePrintable, Bool.and_eq_true] at h
      have he := recovers e h.1
      have hes := recoversAll es h.2
      simpa using ⟨he, hes⟩

theorem recoversItems : ∀ items : List ArrayItem, arePrintableItems items = true →
    ∀ item ∈ items, RecoversItem item
  | [], _ => by simp
  | item :: items, h => by
      simp only [arePrintableItems, Bool.and_eq_true] at h
      have hitem := recoversItem item h.1
      have hitems := recoversItems items h.2
      simpa using ⟨hitem, hitems⟩
end

end PhpLint.Syntax
