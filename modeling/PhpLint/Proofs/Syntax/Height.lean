import PhpLint.Proofs.Syntax.Inversion
import PhpLint.Proofs.Syntax.Nesting

namespace PhpLint

open PhpLint.Syntax (maxHeight)

def ArrayItem.operands : ArrayItem → List Expr
  | plain value => [value]
  | keyed key value => [key, value]

namespace Expr

-- The expressions that a node is made of.
def operands : Expr → List Expr
  | assign _ target value _ => [target, value]
  | binary _ left right _ _ => [left, right]
  | unary _ operand _ _ | cast _ operand _ => [operand]
  | array items _ _ => items.flatMap ArrayItem.operands
  | call _ arguments _ | staticCall _ _ arguments _ | new _ arguments _ => arguments
  | methodCall object _ arguments _ => object :: arguments
  | property object _ _ => [object]
  | element container index _ => [container, index]
  | slot container _ => [container]
  | literal .. | var .. | constant .. | interpolated .. | invalid .. => []

theorem listHeight_append (es fs : List Expr) :
    listHeight (es ++ fs) = max (listHeight es) (listHeight fs) := by
  induction es with
  | nil => simp [listHeight]
  | cons e es ih => simp only [List.cons_append, listHeight, ih, Nat.max_assoc]

theorem itemsHeight_eq (items : List ArrayItem) :
    itemsHeight items = listHeight (items.flatMap ArrayItem.operands) := by
  induction items with
  | nil => rfl
  | cons item items ih =>
      rw [List.flatMap_cons, listHeight_append, ← ih]
      cases item <;> simp [itemsHeight, ArrayItem.operands, listHeight]

theorem height_eq (e : Expr) : e.height = listHeight e.operands + 1 := by
  cases e <;> simp [height, operands, listHeight, itemsHeight_eq]

theorem listHeight_le_iff {es : List Expr} {bound : Nat} :
    listHeight es ≤ bound ↔ ∀ e ∈ es, e.height ≤ bound := by
  induction es with
  | nil => simp [listHeight]
  | cons e es ih => simp only [listHeight, Nat.max_le, ih, List.forall_mem_cons]

theorem height_lt_of_mem_operands {e operand : Expr} (h : operand ∈ e.operands) :
    operand.height < e.height := by
  have hle := listHeight_le_iff.mp (Nat.le_refl (listHeight e.operands)) operand h
  rw [e.height_eq]
  omega

-- Induction on the operands of a node, whatever kind of node it is.
theorem operandsInduction {P : Expr → Prop} (h : ∀ e, (∀ operand ∈ e.operands, P operand) → P e)
    (e : Expr) : P e := by
  induction hheight : e.height using Nat.strongRecOn generalizing e with
  | _ height ih =>
      refine h e fun operand hoperand => ih operand.height ?_ operand rfl
      rw [← hheight]
      exact height_lt_of_mem_operands hoperand

theorem listParts_append (es fs : List Expr) :
    listParts (es ++ fs) = listParts es ++ listParts fs := by
  induction es with
  | nil => rfl
  | cons e es ih => simp [listParts, ih]

theorem itemParts_eq (items : List ArrayItem) :
    itemParts items = listParts (items.flatMap ArrayItem.operands) := by
  induction items with
  | nil => rfl
  | cons item items ih =>
      rw [List.flatMap_cons, listParts_append, ← ih]
      cases item <;> simp [itemParts, ArrayItem.operands, listParts]

theorem parts_eq (e : Expr) : e.parts = e :: listParts e.operands := by
  cases e <;> simp [parts, operands, listParts, itemParts_eq]

theorem height_le_of_mem_parts {e part : Expr} (h : part ∈ e.parts) : part.height ≤ e.height := by
  induction e using operandsInduction with
  | h e ih =>
      rw [parts_eq, List.mem_cons, mem_listParts] at h
      rcases h with rfl | ⟨operand, hoperand, hpart⟩
      · exact Nat.le_refl _
      · have hle := ih operand hoperand hpart
        have hlt := height_lt_of_mem_operands hoperand
        omega

-- The height of what accesses in a row start from, and one for each of them.
def spine : Expr → Nat
  | methodCall object .. | property object .. | element object .. | slot object _ =>
    object.spine + 1
  | e => e.height

-- What is compared with the limit when a node is built. For an access its arguments are left
-- out, and most other nodes are not looked at.
def checkedHeight? : Expr → Option Nat
  | e@(assign ..) => some e.height
  | e@(binary op ..) => if op = .power then none else some e.height
  | e@(methodCall ..) | e@(property ..) | e@(element ..) | e@(slot ..) => some e.spine
  | _ => none

def IsChecked (e : Expr) : Prop :=
  ∀ height ∈ e.checkedHeight?, height ≤ maxHeight

theorem height_pos (e : Expr) : 0 < e.height := by
  rw [e.height_eq]
  exact Nat.succ_pos _

theorem spine_le_height (e : Expr) : e.spine ≤ e.height := by
  fun_induction spine e with
  | case5 e => exact Nat.le_refl _
  | _ =>
      simp only [height]
      omega

theorem spine_pos (e : Expr) : 0 < e.spine := by
  fun_cases spine e with
  | case5 => exact e.height_pos
  | _ => exact Nat.succ_pos _

theorem isChecked_of_height_le {e : Expr} (h : e.height ≤ maxHeight) : e.IsChecked := by
  have hspine := Nat.le_trans e.spine_le_height h
  cases e <;> simp_all [IsChecked, checkedHeight?]

-- The height is bounded, and all nodes have been compared with the limit.
structure Bounded (bound : Nat) (e : Expr) : Prop where
  height_le : e.height ≤ bound
  checked : ∀ part ∈ e.parts, part.IsChecked

theorem Bounded.mono {bound larger : Nat} {e : Expr} (h : e.Bounded bound) (hle : bound ≤ larger) :
    e.Bounded larger :=
  ⟨Nat.le_trans h.height_le hle, h.checked⟩

-- A node is at most one higher than its operands.
theorem Bounded.node {bound : Nat} {e : Expr} (hself : e.IsChecked)
    (h : ∀ operand ∈ e.operands, operand.Bounded bound) : e.Bounded (bound + 1) := by
  constructor
  · rw [e.height_eq]
    exact Nat.succ_le_succ (listHeight_le_iff.mpr fun operand ho => (h operand ho).height_le)
  · intro part hpart
    rw [parts_eq, List.mem_cons, mem_listParts] at hpart
    rcases hpart with rfl | ⟨operand, hoperand, hpart⟩
    · exact hself
    · exact (h operand hoperand).checked part hpart

end Expr

namespace Syntax

open PhpLint.Syntax.Parser

section Expressions

variable {nested : Nested} {bound : Nat}

structure Nested.Bounded (bound : Nat) (nested : Nested) : Prop where
  expression : Yields nested.expression (Expr.Bounded bound)
  operand : Yields nested.operand (Expr.Bounded bound)
  assigned : Yields nested.assigned (Expr.Bounded bound)

theorem Parser.Yields.checked {β : Type} {f : Unit → Parser β} {Q : β → Prop} {height : Nat}
    (h : height ≤ maxHeight → Yields (f ()) Q) : Yields (checkHeight height >>= f) Q := by
  unfold checkHeight
  split
  · exact yields_tooDeep.bind fun _ (hfalse : False) => hfalse.elim
  · next hle => exact h (Nat.le_of_not_lt hle)

-- Most nodes are not looked at.
theorem yields_node {e : Expr} (hnone : e.checkedHeight? = none)
    (h : ∀ operand ∈ e.operands, operand.Bounded bound) :
    Yields (pure e) (Expr.Bounded (bound + 1)) :=
  yields_pure (.node (by simp [Expr.IsChecked, hnone]) h)

theorem yields_leaf {e : Expr} (hnone : e.checkedHeight? = none) (h : e.operands = []) :
    Yields (pure e) (Expr.Bounded (bound + 1)) :=
  yields_node hnone (by simp [h])

theorem yields_arguments (hn : nested.Bounded bound) :
    Yields (arguments nested) fun es => ∀ e ∈ es, e.Bounded bound :=
  .after fun _ => (yields_separated hn.expression).bind fun _ hes => .after fun _ => yields_pure hes

theorem yields_arrayItem (hn : nested.Bounded bound) :
    Yields (arrayItem nested) fun item => ∀ e ∈ item.operands, e.Bounded bound := by
  refine hn.expression.bind fun first hfirst => .after fun isKeyed => ?_
  cases isKeyed with
  | true =>
      refine hn.expression.bind fun value hvalue => yields_pure ?_
      simp [ArrayItem.operands, hfirst, hvalue]
  | false => exact yields_pure (by simp [ArrayItem.operands, hfirst])

theorem yields_arrayItems (hn : nested.Bounded bound) (closing : Symbol) :
    Yields (arrayItems nested closing) fun items =>
      ∀ e ∈ items.flatMap ArrayItem.operands, e.Bounded bound := by
  refine (yields_separated (yields_arrayItem hn)).bind fun items hitems => .after fun _ => ?_
  refine yields_pure fun e he => ?_
  obtain ⟨item, hitem, he⟩ := List.mem_flatMap.mp he
  exact hitems item hitem e he

theorem yields_restOfName (hn : nested.Bounded bound) (name : Identifier) :
    Yields (restOfName nested name) (Expr.Bounded (bound + 1)) := by
  refine .after fun isCall => ?_
  cases isCall with
  | true => exact (yields_arguments hn).bind fun es hes => .after fun _ => yields_node rfl hes
  | false =>
      refine .after fun isMember => ?_
      cases isMember with
      | true =>
          refine .after fun member => .after fun isCall => ?_
          cases isCall with
          | true =>
              exact (yields_arguments hn).bind fun es hes => .after fun _ => yields_node rfl hes
          | false => exact yields_leaf rfl rfl
      | false => exact yields_leaf rfl rfl

theorem yields_newObject (hn : nested.Bounded bound) (start : Location) :
    Yields (newObject nested start) (Expr.Bounded (bound + 1)) := by
  refine .after fun owner => .after fun isCall => ?_
  cases isCall with
  | true => exact (yields_arguments hn).bind fun es hes => .after fun _ => yields_node rfl hes
  | false =>
      have hnone : Yields (pure []) fun es => ∀ e ∈ es, Expr.Bounded bound e :=
        yields_pure (by simp)
      exact hnone.bind fun es hes => .after fun _ => yields_node rfl hes

theorem yields_operandOf (hn : nested.Bounded bound) (found : Token × Location) :
    Yields (operandOf nested found) (Expr.Bounded (bound + 1)) := by
  obtain ⟨token, location⟩ := found
  have hthrow {error : SyntaxError} : Yields (throw error) (Expr.Bounded (bound + 1)) :=
    yields_throw
  cases token with
  | symbol symbol =>
      cases symbol with
      | parenLeft =>
          refine hn.expression.bind fun inner hinner => .after fun _ => ?_
          exact yields_pure (hinner.mono (Nat.le_succ bound))
      | bracketLeft =>
          exact (yields_arrayItems hn _).bind fun items hitems => .after fun _ =>
            yields_node rfl hitems
      | _ => exact hthrow
  | keyword keyword =>
      cases keyword with
      | New => exact yields_newObject hn location
      | Static => exact yields_restOfName hn _
      | _ => exact hthrow
  | identifier name =>
      rw [operandOf_identifier]
      split
      · refine .after fun isArray => ?_
        cases isArray with
        | true =>
            exact (yields_arrayItems hn _).bind fun items hitems => .after fun _ =>
              yields_node rfl hitems
        | false => exact yields_restOfName hn _
      · exact yields_restOfName hn _
  | string text interpolated => cases interpolated <;> exact yields_leaf rfl rfl
  | var | int | float | bool | null => exact yields_leaf rfl rfl
  | _ => exact hthrow

theorem yields_primary (hn : nested.Bounded bound) :
    Yields (primary nested) (Expr.Bounded (bound + 1)) := by
  refine .after fun missing => ?_
  cases missing with
  | some location => exact .after fun _ => yields_leaf rfl rfl
  | none => exact .after fun found => yields_operandOf hn found

-- An access to the expression so far, with what is nested in its arguments.
structure IsAccess (bound : Nat) (object access : Expr) : Prop where
  checkedHeight?_eq : access.checkedHeight? = some access.spine
  spine_eq : access.spine = object.spine + 1
  operands_bounded : ∀ operand ∈ access.operands, operand = object ∨ operand.Bounded bound

theorem yields_member (hn : nested.Bounded bound) (object : Expr) :
    Yields (member nested object) (IsAccess bound object) := by
  refine .after fun name => .after fun isCall => ?_
  cases isCall with
  | true =>
      refine (yields_arguments hn).bind fun es hes => .after fun _ => yields_pure ⟨rfl, rfl, ?_⟩
      simpa [Expr.operands] using fun e he => Or.inr (hes e he)
  | false => exact yields_pure ⟨rfl, rfl, by simp [Expr.operands]⟩

theorem yields_subscript (hn : nested.Bounded bound) (container : Expr) :
    Yields (subscript nested container) (IsAccess bound container) := by
  refine .after fun isSlot => ?_
  cases isSlot with
  | true => exact .after fun _ => yields_pure ⟨rfl, rfl, by simp [Expr.operands]⟩
  | false =>
      refine hn.expression.bind fun index hindex => .after fun _ => .after fun _ => ?_
      exact yields_pure ⟨rfl, rfl, by simp [Expr.operands, hindex]⟩

theorem yields_access? (hn : nested.Bounded bound) (object : Expr) :
    Yields (access? nested object) fun result =>
      ∀ access ∈ result, IsAccess bound object access := by
  refine .after fun isMember => ?_
  cases isMember with
  | true => exact (yields_member hn object).bind fun access h => yields_pure (by simpa using h)
  | false =>
      refine .after fun isSubscript => ?_
      cases isSubscript with
      | true =>
          exact (yields_subscript hn object).bind fun access h => yields_pure (by simpa using h)
      | false => exact yields_pure (by simp)

-- The height of the expression so far, and the count that is kept of it. Arguments are not
-- counted, so what is nested in them comes on top of it.
structure Counted (bound : Nat) (object : Expr) (count : Nat) : Prop where
  checked : ∀ part ∈ object.parts, part.IsChecked
  spine_le : object.spine ≤ count
  height_le : object.height ≤ count ∨ object.height < bound + count
  limited : object.height ≤ bound + 1 ∨ count ≤ maxHeight

theorem Counted.first {first : Expr} (h : first.Bounded (bound + 1)) :
    Counted bound first first.height :=
  ⟨h.checked, first.spine_le_height, .inl (Nat.le_refl _), .inl h.height_le⟩

theorem Counted.next {object access : Expr} {count : Nat} (h : Counted bound object count)
    (haccess : IsAccess bound object access) (hcount : count + 1 ≤ maxHeight) :
    Counted bound access (count + 1) := by
  have hspine := h.spine_le
  have hpositive := object.spine_pos
  have hnext := haccess.spine_eq
  have hself : access.IsChecked := by
    rw [Expr.IsChecked, haccess.checkedHeight?_eq]
    rintro _ ⟨⟩
    omega
  have hoperands : ∀ operand ∈ access.operands,
      operand.Bounded (max object.height bound) := by
    intro operand hoperand
    rcases haccess.operands_bounded operand hoperand with rfl | hbounded
    · exact ⟨Nat.le_max_left _ _, h.checked⟩
    · exact hbounded.mono (Nat.le_max_right _ _)
  have hbounded := Expr.Bounded.node hself hoperands
  have hheight := hbounded.height_le
  have hle := h.height_le
  exact ⟨hbounded.checked, by omega, by omega, .inr hcount⟩

theorem yields_accesses (hn : nested.Bounded bound) :
    Yields (accesses nested) (Expr.Bounded (max maxHeight (bound + maxHeight - 1))) := by
  refine (yields_primary hn).bind fun first hfirst => ?_
  refine yields_iterate (fun state => Counted bound state.1 state.2) (.first hfirst)
    fun ⟨object, count⟩ hcounted => ?_
  refine (yields_access? hn object).bind fun result hresult => ?_
  cases result with
  | none =>
      have hle : object.height ≤ count ∨ object.height < bound + count := hcounted.height_le
      have hlimited : object.height ≤ bound + 1 ∨ count ≤ maxHeight := hcounted.limited
      refine yields_pure ⟨?_, hcounted.checked⟩
      simp only [maxHeight] at hlimited ⊢
      omega
  | some access =>
      exact .checked fun hcount => yields_pure (hcounted.next (hresult access rfl) hcount)

-- Where there is an exponent, something is nested.
theorem yields_power (hn : nested.Bounded bound) (hbound : 0 < bound → maxHeight ≤ bound) :
    Yields (power nested) (Expr.Bounded (bound + maxHeight)) := by
  refine (yields_accesses hn).bind fun base hbase => .after fun isPower => ?_
  cases isPower with
  | true =>
      refine .after fun _ => hn.operand.bind fun exponent hexponent => ?_
      have hsome := hbound (Nat.lt_of_lt_of_le exponent.height_pos hexponent.height_le)
      have hoperands : ∀ operand ∈ [base, exponent],
          operand.Bounded (bound + maxHeight - 1) := by
        simp only [List.mem_cons, List.not_mem_nil, or_false, forall_eq_or_imp, forall_eq]
        simp only [maxHeight] at hbase hsome ⊢
        exact ⟨hbase.mono (by omega), hexponent.mono (by omega)⟩
      exact yields_node rfl hoperands
  | false =>
      refine yields_pure (hbase.mono ?_)
      omega

theorem yields_unary (hn : nested.Bounded bound) (hbound : 0 < bound → maxHeight ≤ bound) :
    Yields (unary nested) (Expr.Bounded (bound + maxHeight)) := by
  have hnode {e operand : Expr} (hnone : e.checkedHeight? = none) (h : e.operands = [operand])
      (hoperand : operand.Bounded bound) :
      Yields (pure e) (Expr.Bounded (bound + maxHeight)) := by
    have hself : e.IsChecked := by simp [Expr.IsChecked, hnone]
    have hbounded := Expr.Bounded.node hself (by simpa [h] using hoperand)
    exact yields_pure (hbounded.mono (by simp [maxHeight]))
  refine .after fun token? => ?_
  split
  · refine .after fun _ => .after fun _ => hn.operand.bind fun operand hoperand => ?_
    exact hnode rfl rfl hoperand
  · split
    · refine .after fun _ => .after fun _ => hn.operand.bind fun operand hoperand => ?_
      exact hnode rfl rfl hoperand
    · exact yields_power hn hbound

-- A node whose height is within the limit does not count on top of its operands.
theorem bounded_of_height_le {e : Expr} (hheight : e.height ≤ maxHeight)
    (h : ∀ operand ∈ e.operands, operand.Bounded (bound + maxHeight)) :
    e.Bounded (bound + maxHeight) := by
  have hnode := Expr.Bounded.node (Expr.isChecked_of_height_le hheight) h
  exact ⟨Nat.le_trans hheight (Nat.le_add_left _ _), hnode.checked⟩

theorem yields_operation {table : List (Token × BinaryOp)} {operand : Parser Expr}
    (hoperand : Yields operand (Expr.Bounded (bound + maxHeight))) :
    Yields (operation table operand) (Expr.Bounded (bound + maxHeight)) := by
  refine hoperand.bind fun first hfirst => ?_
  refine yields_iterate (Expr.Bounded (bound + maxHeight)) hfirst fun left hleft => ?_
  refine .after fun token? => ?_
  split
  · exact yields_pure hleft
  · refine .after fun _ => .after fun _ => hoperand.bind fun right hright => ?_
    refine .checked fun hheight => yields_pure ?_
    exact bounded_of_height_le hheight (by simp [Expr.operands, hleft, hright])

theorem yields_assignment (hn : nested.Bounded bound) {operand : Parser Expr}
    (hoperand : Yields operand (Expr.Bounded (bound + maxHeight))) :
    Yields (assignment nested operand) (Expr.Bounded (bound + maxHeight)) := by
  refine hoperand.bind fun target htarget => .after fun token? => ?_
  split
  · exact yields_pure htarget
  · refine .after fun _ => .after fun _ => hn.assigned.bind fun value hvalue => ?_
    refine .checked fun hheight => yields_pure ?_
    have hvalue := hvalue.mono (Nat.le_add_right bound maxHeight)
    exact bounded_of_height_le hheight (by simp [Expr.operands, htarget, hvalue])

-- By induction on the levels, the tighter ones first.
theorem yields_climb (hn : nested.Bounded bound) (hbound : 0 < bound → maxHeight ≤ bound)
    (levels : List Level) : Yields (climb nested levels) (Expr.Bounded (bound + maxHeight)) := by
  induction levels with
  | nil => exact yields_unary hn hbound
  | cons level tighter ih =>
      cases level with
      | assignments => exact yields_assignment hn ih
      | operators table => exact yields_operation ih

-- Each level of nesting adds as much as the limit.
theorem bounded_nestedAt (depth : Nat) : (nestedAt depth).Bounded (maxHeight * depth) := by
  induction depth with
  | zero => exact ⟨yields_tooDeep, yields_tooDeep, yields_tooDeep⟩
  | succ depth ih =>
      have hbound : 0 < maxHeight * depth → maxHeight ≤ maxHeight * depth := by
        simp only [maxHeight]
        omega
      rw [Nat.mul_succ]
      exact ⟨yields_climb ih hbound _, yields_unary ih hbound, yields_climb ih hbound _⟩

end Expressions

end Syntax

-- Nothing that limits an expression depends on its places.
section Erase

theorem ArrayItem.operands_erase (item : ArrayItem) :
    item.erase.operands = item.operands.map Expr.erase := by
  cases item <;> simp [ArrayItem.erase, ArrayItem.operands]

namespace Expr

theorem operands_erase (e : Expr) : e.erase.operands = e.operands.map erase := by
  cases e <;> simp [erase, operands, eraseAll_eq_map, eraseItems_eq_map, List.flatMap_map,
    List.map_flatMap, ArrayItem.operands_erase]

theorem listHeight_map_erase {es : List Expr} (h : ∀ e ∈ es, e.erase.height = e.height) :
    listHeight (es.map erase) = listHeight es := by
  induction es with
  | nil => rfl
  | cons e es ih =>
      have hfirst := h e (by simp)
      have hrest := ih fun e he => h e (by simp [he])
      rw [List.map_cons, listHeight, listHeight, hfirst, hrest]

theorem height_erase (e : Expr) : e.erase.height = e.height := by
  induction e using operandsInduction with
  | h e ih => rw [height_eq, operands_erase, listHeight_map_erase ih, ← height_eq]

theorem spine_erase (e : Expr) : e.erase.spine = e.spine := by
  induction e using operandsInduction with
  | h e ih =>
      have hheight := e.height_erase
      cases e <;> simp_all [erase, spine, operands]

theorem checkedHeight?_erase (e : Expr) : e.erase.checkedHeight? = e.checkedHeight? := by
  have hheight := e.height_erase
  have hspine := e.spine_erase
  cases e <;> simp_all [erase, checkedHeight?]

theorem listParts_map_erase {es : List Expr} (h : ∀ e ∈ es, e.erase.parts = e.parts.map erase) :
    listParts (es.map erase) = (listParts es).map erase := by
  induction es with
  | nil => rfl
  | cons e es ih =>
      have hfirst := h e (by simp)
      have hrest := ih fun e he => h e (by simp [he])
      rw [List.map_cons, listParts, listParts, hfirst, hrest, List.map_append]

theorem parts_erase (e : Expr) : e.erase.parts = e.parts.map erase := by
  induction e using operandsInduction with
  | h e ih => rw [parts_eq, operands_erase, listParts_map_erase ih, parts_eq e, List.map_cons]

end Expr

end Erase

open Syntax

-- What holds of all expressions: each is within the limit as far as it is compared with it,
-- and by all levels of nesting together it grows no higher than this.
structure Expr.IsLimited (e : Expr) : Prop where
  checked : e.IsChecked
  height_le : e.height ≤ maxHeight * (maxDepth - 1)

theorem Expr.IsLimited.of_erase_eq {e e' : Expr} (h : e.IsLimited) (heq : e.erase = e'.erase) :
    e'.IsLimited := by
  constructor
  · rw [IsChecked, ← checkedHeight?_erase, ← heq, checkedHeight?_erase]
    exact h.checked
  · rw [← height_erase, ← heq, height_erase]
    exact h.height_le

theorem isLimited_parse (lexemes : List Lexeme) :
    ∀ s ∈ (parse lexemes).1, ∀ e ∈ s.expressions, e.IsLimited := by
  intro s hs e he
  have hwithin := within_parse (fun depth => (bounded_nestedAt depth).expression) lexemes s hs
  obtain ⟨level, hlevel, whole, hwhole, hpart⟩ := hwithin.isBelow (mem_expressionsIn.mp he)
  refine ⟨hwhole.checked e hpart, ?_⟩
  calc e.height ≤ whole.height := Expr.height_le_of_mem_parts hpart
    _ ≤ maxHeight * level := hwhole.height_le
    _ ≤ maxHeight * (maxDepth - 1) := Nat.mul_le_mul_left maxHeight (Nat.le_pred_of_lt hlevel)

-- The height of an expression is compared with the limit only where it is an assignment, an
-- operation other than a power, or, without its arguments, an access. All others are limited
-- only by what may be nested. An expression beyond these limits is reported.
theorem expression_height_limited (lexemes : List Lexeme) :
    (∀ s ∈ (parse lexemes).1, ∀ e ∈ s.expressions, e.IsLimited) ∧
    ∀ e : Expr, e.isPrintable = true →
      lexemes.map Lexeme.content = (e.tokens ++ [Token.symbol .semicolon]).map .ok →
      (∃ part ∈ e.parts, ¬ part.IsLimited) →
      ∃ location, .tooDeep location ∈ (parse lexemes).2 := by
  refine ⟨isLimited_parse lexemes, fun e hprintable hlexemes ⟨part, hpart, hbeyond⟩ => ?_⟩
  rcases parse_eq_or_tooDeep hprintable hlexemes with hdeep | ⟨e', location, hparse, herase⟩
  · exact hdeep
  · have hparts : part.erase ∈ e'.parts.map Expr.erase := by
      rw [← Expr.parts_erase, herase, Expr.parts_erase]
      exact List.mem_map_of_mem hpart
    obtain ⟨part', hpart', heq⟩ := List.mem_map.mp hparts
    have hexpressions : part' ∈ (Stmt.expr e' location).expressions := by
      rw [Stmt.expressions, Stmt.pieces, expressionsIn_stmt_cons, expressionsIn_pieces]
      exact hpart'
    have hmem : Stmt.expr e' location ∈ (parse lexemes).1 := by simp [hparse]
    have hlimited := isLimited_parse lexemes _ hmem part' hexpressions
    exact absurd (hlimited.of_erase_eq heq) hbeyond

-- Ones that are added up, as many as given and one.
def sumExpr : Nat → Expr
  | 0 => .literal (.int 1) default
  | ones + 1 => .binary .add (sumExpr ones) (.literal (.int 1) default) default default

def statementLexemes (e : Expr) : List Lexeme :=
  (e.tokens ++ [Token.symbol .semicolon]).map fun token => ⟨.ok token, default⟩

-- A sum is reported if it is too high.
theorem expression_height_limited_sum :
    (sumExpr maxHeight).isPrintable = true ∧ ¬ (sumExpr maxHeight).IsLimited ∧
      ∃ location, .tooDeep location ∈ (parse (statementLexemes (sumExpr maxHeight))).2 := by
  have hprintable : (sumExpr maxHeight).isPrintable = true := by decide +kernel
  have hbeyond : ¬ (sumExpr maxHeight).IsLimited := by
    intro h
    have hheight : (sumExpr maxHeight).height ≤ maxHeight := h.checked _ rfl
    revert hheight
    decide +kernel
  have hself : sumExpr maxHeight ∈ (sumExpr maxHeight).parts := by
    rw [Expr.parts_eq]
    exact List.mem_cons_self
  exact ⟨hprintable, hbeyond, (expression_height_limited _).2 _ hprintable
    (by simp [statementLexemes]) ⟨_, hself, hbeyond⟩⟩

-- The highest sum that is allowed, with a sign in front of it and as an argument.
theorem unchecked_expressions_grow :
    let sum := sumExpr (maxHeight - 1)
    ∀ e ∈ [Expr.unary .minus sum default default,
        .methodCall (.var "a" default) ⟨"m", default⟩ [sum] default],
      (parse (statementLexemes e)).2 = [] ∧
        ∃ s ∈ (parse (statementLexemes e)).1, ∃ e ∈ s.expressions, maxHeight < e.height := by
  intro sum e he
  have hgrow : ∀ e ∈ [Expr.unary .minus sum default default,
        .methodCall (.var "a" default) ⟨"m", default⟩ [sum] default],
      (parse (statementLexemes e)).2 = [] ∧ (parse (statementLexemes e)).1.any fun s =>
        s.expressions.any fun e => maxHeight < e.height := by
    decide +kernel
  simpa using hgrow e he

end PhpLint
