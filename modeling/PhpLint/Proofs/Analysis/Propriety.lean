import PhpLint.Proofs.Analysis.Fatality
import PhpLint.Proofs.Syntax.Parts

namespace PhpLint

-- The accesses without an index that are read. Those that are written are the target of
-- an assignment itself and the links of its chain of accesses; what such a chain starts
-- from and the indexes on the way are read again.
mutual
def Expr.slotReads (written : Bool) : Expr → List Expr
  | .assign _ target value _ => target.slotReads true ++ value.slotReads false
  | .binary _ left right _ _ => left.slotReads false ++ right.slotReads false
  | .unary _ operand _ _ => operand.slotReads false
  | .cast _ operand _ => operand.slotReads false
  | .array items _ _ => itemSlotReads items
  | .call _ arguments _ => listSlotReads arguments
  | .staticCall _ _ arguments _ => listSlotReads arguments
  | .new _ arguments _ => listSlotReads arguments
  | .methodCall object _ arguments _ => object.slotReads false ++ listSlotReads arguments
  | .property object _ _ => object.slotReads false
  | .element container index _ => container.slotReads written ++ index.slotReads false
  | .slot container location =>
    (if written then [] else [.slot container location]) ++ container.slotReads written
  | .literal .. | .var .. | .constant .. | .interpolated .. | .invalid .. => []

def listSlotReads : List Expr → List Expr
  | [] => []
  | e :: es => e.slotReads false ++ listSlotReads es

def itemSlotReads : List ArrayItem → List Expr
  | [] => []
  | .plain value :: items => value.slotReads false ++ itemSlotReads items
  | .keyed key value :: items =>
    key.slotReads false ++ value.slotReads false ++ itemSlotReads items
end

def Expr.isThis : Expr → Bool
  | .var name _ => name == "this"
  | _ => false

-- An expression that is neither a placeholder nor an assignment to what cannot be
-- assigned.
def Expr.isLawful : Expr → Bool
  | .invalid _ => false
  | .assign _ target _ _ => target.isAssignable && !target.isThis
  | _ => true

structure Expr.IsProper (e : Expr) : Prop where
  lawful : ∀ part ∈ e.parts, part.isLawful = true
  slots : e.slotReads false = []

instance (e : Expr) : Decidable e.IsProper :=
  decidable_of_iff ((∀ part ∈ e.parts, part.isLawful = true) ∧ e.slotReads false = [])
    ⟨fun h => ⟨h.1, h.2⟩, fun h => ⟨h.lawful, h.slots⟩⟩

def Stmt.isInvalid : Stmt → Bool
  | .invalid _ => true
  | _ => false

-- What is asked of a statement without those in it. The defaults of a method without a
-- body are never evaluated, and nothing is asked of them.
structure Stmt.IsOrderly (s : Stmt) : Prop where
  valid : s.isInvalid = false
  operands : ∀ e ∈ s.operands, e.IsProper
  defaults : ∀ e ∈ s.defaults, e.IsProper

instance (s : Stmt) : Decidable s.IsOrderly :=
  decidable_of_iff (s.isInvalid = false ∧ (∀ e ∈ s.operands, e.IsProper) ∧
      ∀ e ∈ s.defaults, e.IsProper)
    ⟨fun h => ⟨h.1, h.2.1, h.2.2⟩, fun h => ⟨h.valid, h.operands, h.defaults⟩⟩

def Stmt.IsProper (s : Stmt) : Prop :=
  ∀ part ∈ s.parts, part.IsOrderly

instance (s : Stmt) : Decidable s.IsProper :=
  inferInstanceAs (Decidable (∀ part ∈ s.parts, part.IsOrderly))

theorem Expr.writeFault?_eq_none {e : Expr} (h : e.isThis = false) : e.writeFault? = none := by
  cases e <;> simp_all [isThis, writeFault?]

-- The induction follows the evaluation. A target is not an operand, so its accesses
-- without an index are looked at as written ones.
mutual
theorem Expr.fault?_eq_none : ∀ e : Expr, (∀ part ∈ e.parts, part.isLawful = true) →
    e.slotReads false = [] → e.fault? = none
  | .literal .. | .var .. | .constant .. | .interpolated .. => fun _ _ => by rw [Expr.fault?]
  | .invalid location => fun hlawful _ => by
      have h := hlawful (.invalid location) (by simp [Expr.parts])
      cases h
  | .slot container location => fun _ hslots => by
      simp [Expr.slotReads] at hslots
  | .assign op target value location => fun hlawful hslots => by
      have hself := hlawful (.assign op target value location) (by simp [Expr.parts])
      simp only [Expr.isLawful, Bool.and_eq_true, Bool.not_eq_true'] at hself
      simp only [Expr.slotReads, List.append_eq_nil_iff] at hslots
      rw [Expr.parts] at hlawful
      simp only [List.forall_mem_cons, List.forall_mem_append] at hlawful
      rw [Expr.fault?, if_pos hself.1]
      rw [Expr.placeFault?_eq_none target hlawful.2.1 hslots.1]
      rw [Expr.fault?_eq_none value hlawful.2.2 hslots.2]
      rw [Expr.writeFault?_eq_none hself.2]
      rfl
  | .binary _ left right _ _ | .element left right _ => fun hlawful hslots => by
      simp only [Expr.slotReads, List.append_eq_nil_iff] at hslots
      rw [Expr.parts] at hlawful
      simp only [List.forall_mem_cons, List.forall_mem_append] at hlawful
      rw [Expr.fault?, Expr.fault?_eq_none left hlawful.2.1 hslots.1]
      exact Expr.fault?_eq_none right hlawful.2.2 hslots.2
  | .unary _ operand _ _ | .cast _ operand _ | .property operand _ _ => fun hlawful hslots => by
      rw [Expr.slotReads] at hslots
      rw [Expr.parts] at hlawful
      rw [Expr.fault?]
      exact Expr.fault?_eq_none operand (List.forall_mem_cons.mp hlawful).2 hslots
  | .array items _ _ => fun hlawful hslots => by
      rw [Expr.slotReads] at hslots
      rw [Expr.parts] at hlawful
      rw [Expr.fault?]
      exact itemsFault?_eq_none items (List.forall_mem_cons.mp hlawful).2 hslots
  | .call _ arguments _ | .staticCall _ _ arguments _ | .new _ arguments _ =>
      fun hlawful hslots => by
      rw [Expr.slotReads] at hslots
      rw [Expr.parts] at hlawful
      rw [Expr.fault?]
      exact listFault?_eq_none arguments (List.forall_mem_cons.mp hlawful).2 hslots
  | .methodCall object _ arguments _ => fun hlawful hslots => by
      simp only [Expr.slotReads, List.append_eq_nil_iff] at hslots
      rw [Expr.parts] at hlawful
      simp only [List.forall_mem_cons, List.forall_mem_append] at hlawful
      rw [Expr.fault?, Expr.fault?_eq_none object hlawful.2.1 hslots.1]
      exact listFault?_eq_none arguments hlawful.2.2 hslots.2

theorem Expr.placeFault?_eq_none : ∀ e : Expr, (∀ part ∈ e.parts, part.isLawful = true) →
    e.slotReads true = [] → e.placeFault? = none
  | .property object _ _ => fun hlawful hslots => by
      rw [Expr.slotReads] at hslots
      rw [Expr.parts] at hlawful
      rw [Expr.placeFault?]
      exact Expr.fault?_eq_none object (List.forall_mem_cons.mp hlawful).2 hslots
  | .element container index _ => fun hlawful hslots => by
      simp only [Expr.slotReads, List.append_eq_nil_iff] at hslots
      rw [Expr.parts] at hlawful
      simp only [List.forall_mem_cons, List.forall_mem_append] at hlawful
      rw [Expr.placeFault?, Expr.placeFault?_eq_none container hlawful.2.1 hslots.1]
      exact Expr.fault?_eq_none index hlawful.2.2 hslots.2
  | .slot container _ => fun hlawful hslots => by
      simp only [Expr.slotReads, if_true, List.nil_append] at hslots
      rw [Expr.parts] at hlawful
      rw [Expr.placeFault?]
      exact Expr.placeFault?_eq_none container (List.forall_mem_cons.mp hlawful).2 hslots
  | .literal .. | .var .. | .constant .. | .assign .. | .binary .. | .unary .. | .cast ..
  | .array .. | .call .. | .methodCall .. | .staticCall .. | .new .. | .interpolated ..
  | .invalid .. => fun _ _ => by
      rw [Expr.placeFault?]
      all_goals simp

theorem listFault?_eq_none : ∀ es : List Expr, (∀ part ∈ listParts es, part.isLawful = true) →
    listSlotReads es = [] → listFault? es = none
  | [], _, _ => by rw [listFault?]
  | e :: es, hlawful, hslots => by
      simp only [listSlotReads, List.append_eq_nil_iff] at hslots
      simp only [listParts, List.forall_mem_append] at hlawful
      rw [listFault?, Expr.fault?_eq_none e hlawful.1 hslots.1]
      exact listFault?_eq_none es hlawful.2 hslots.2

theorem itemsFault?_eq_none : ∀ items : List ArrayItem,
    (∀ part ∈ itemParts items, part.isLawful = true) → itemSlotReads items = [] →
    itemsFault? items = none
  | [], _, _ => by rw [itemsFault?]
  | .plain value :: items, hlawful, hslots => by
      simp only [itemSlotReads, List.append_eq_nil_iff] at hslots
      simp only [itemParts, List.forall_mem_append] at hlawful
      rw [itemsFault?, Expr.fault?_eq_none value hlawful.1 hslots.1]
      exact itemsFault?_eq_none items hlawful.2 hslots.2
  | .keyed key value :: items, hlawful, hslots => by
      simp only [itemSlotReads, List.append_eq_nil_iff] at hslots
      simp only [itemParts, List.forall_mem_append] at hlawful
      rw [itemsFault?, Expr.fault?_eq_none key hlawful.1.1 hslots.1.1]
      rw [Expr.fault?_eq_none value hlawful.1.2 hslots.1.2]
      exact itemsFault?_eq_none items hlawful.2 hslots.2
end

theorem Expr.IsProper.fault?_eq_none {e : Expr} (h : e.IsProper) : e.fault? = none :=
  Expr.fault?_eq_none e h.lawful h.slots

theorem listFault?_of_isProper {es : List Expr} (h : ∀ e ∈ es, e.IsProper) :
    listFault? es = none := by
  induction es with
  | nil => rw [listFault?]
  | cons e es ih =>
      rw [List.forall_mem_cons] at h
      rw [listFault?, h.1.fault?_eq_none]
      exact ih h.2

theorem defaultsFault?_of_isProper {parameters : List Parameter}
    (h : ∀ e ∈ parameters.filterMap (·.default), e.IsProper) :
    defaultsFault? parameters = none := by
  induction parameters with
  | nil => rw [defaultsFault?]
  | cons parameter rest ih =>
      rw [defaultsFault?]
      cases hdefault : parameter.default with
      | none =>
          rw [List.filterMap_cons_none hdefault] at h
          exact ih h
      | some e =>
          rw [List.filterMap_cons_some hdefault, List.forall_mem_cons] at h
          rw [Option.bind_some, h.1.fault?_eq_none]
          exact ih h.2

-- The defaults of the methods stand in the declaration, not among the parts of it.
mutual
theorem Stmt.fault?_eq_none : ∀ s : Stmt, s.IsProper → s.fault? = none
  | .expr e _ => fun h => by
      have hself := h _ List.mem_cons_self
      rw [Stmt.fault?]
      exact (hself.operands e (by simp [Stmt.operands])).fault?_eq_none
  | .echo es _ => fun h => by
      have hself := h _ List.mem_cons_self
      rw [Stmt.fault?]
      exact listFault?_of_isProper hself.operands
  | .ret value _ => fun h => by
      have hself := h _ List.mem_cons_self
      rw [Stmt.fault?]
      cases value with
      | none => rfl
      | some e => exact (hself.operands e (by simp [Stmt.operands])).fault?_eq_none
  | .ifThen condition thenBranch _ => fun h => by
      rw [Stmt.IsProper, Stmt.parts, List.forall_mem_cons] at h
      have hcondition := h.1.operands condition (by simp [Stmt.operands])
      rw [Stmt.fault?, hcondition.fault?_eq_none]
      exact Stmt.fault?_eq_none thenBranch h.2
  | .ifElse condition thenBranch elseBranch _ => fun h => by
      rw [Stmt.IsProper, Stmt.parts, List.forall_mem_cons, List.forall_mem_append] at h
      have hcondition := h.1.operands condition (by simp [Stmt.operands])
      rw [Stmt.fault?, hcondition.fault?_eq_none, Stmt.fault?_eq_none thenBranch h.2.1]
      exact Stmt.fault?_eq_none elseBranch h.2.2
  | .loop condition body _ => fun h => by
      rw [Stmt.IsProper, Stmt.parts, List.forall_mem_cons] at h
      have hcondition := h.1.operands condition (by simp [Stmt.operands])
      rw [Stmt.fault?, hcondition.fault?_eq_none]
      exact Stmt.fault?_eq_none body h.2
  | .block ⟨statements, _⟩ => fun h => by
      rw [Stmt.IsProper, Stmt.parts, List.forall_mem_cons] at h
      rw [Stmt.fault?]
      exact blockFault?_eq_none statements h.2
  | .html _ => fun _ => by rw [Stmt.fault?]
  | .functionDecl signature ⟨statements, _⟩ _ => fun h => by
      rw [Stmt.IsProper, Stmt.parts, List.forall_mem_cons] at h
      have hdefaults := h.1.defaults
      simp only [Stmt.defaults, Stmt.callables, List.flatMap_cons, List.flatMap_nil,
        List.append_nil] at hdefaults
      rw [Stmt.fault?, defaultsFault?_of_isProper hdefaults]
      exact blockFault?_eq_none statements h.2
  | .classDecl header methods _ => fun h => by
      rw [Stmt.IsProper, Stmt.parts, List.forall_mem_cons] at h
      rw [Stmt.fault?]
      exact methodsFault?_eq_none header.name.name methods h.1.defaults h.2
  | .constDecl _ e _ => fun h => by
      have hself := h _ List.mem_cons_self
      rw [Stmt.fault?]
      exact (hself.operands e (by simp [Stmt.operands])).fault?_eq_none
  | .invalid _ => fun h => by
      have hself := h _ List.mem_cons_self
      cases hself.valid

theorem blockFault?_eq_none : ∀ ss : List Stmt, (∀ part ∈ blockParts ss, part.IsOrderly) →
    blockFault? ss = none
  | [], _ => by rw [blockFault?]
  | s :: ss, h => by
      rw [blockParts, List.forall_mem_append] at h
      rw [blockFault?, Stmt.fault?_eq_none s h.1]
      exact blockFault?_eq_none ss h.2

theorem methodsFault?_eq_none (owner : String) : ∀ methods : List Method,
    (∀ e ∈ (methods.filterMap (Method.callable? owner)).flatMap Callable.defaults, e.IsProper) →
    (∀ part ∈ methodParts methods, part.IsOrderly) → methodsFault? methods = none
  | [], _, _ => by rw [methodsFault?]
  | ⟨_, _, none, _⟩ :: methods, hdefaults, h => by
      rw [methodParts] at h
      rw [methodsFault?]
      exact methodsFault?_eq_none owner methods hdefaults h
  | ⟨signature, modifiers, some ⟨statements, _⟩, _⟩ :: methods, hdefaults, h => by
      rw [methodParts, List.forall_mem_append] at h
      simp only [List.filterMap_cons, Method.callable?, List.flatMap_cons,
        List.forall_mem_append] at hdefaults
      rw [methodsFault?, defaultsFault?_of_isProper hdefaults.1, blockFault?_eq_none statements h.1]
      exact methodsFault?_eq_none owner methods hdefaults.2 h.2
end

namespace Eval

-- An expression without a fault is evaluated to its end, whatever the state is.
theorem exists_evaluate_ok {d : Dispatcher} {e : Expr} (h : e.fault? = none) (st : State) :
    ∃ v t, evaluate d e st = .ok v t := by
  have hs : (evaluate d e).fault? st = none := h ▸ ends_evaluate e st
  rw [fault?] at hs
  cases he : evaluate d e st with
  | ok v t => exact ⟨v, t, rfl⟩
  | error f t => simp [he] at hs

end Eval

-- Whether and how an analysis ends fatally is told by the syntax alone, and only what is
-- not proper can end so.
theorem fatality_is_syntactic (s : Stmt) (e : Expr) :
    (∀ d₁ d₂ st₁ st₂, (execute d₁ s).fault? st₁ = (execute d₂ s).fault? st₂) ∧
    (s.IsProper → ∀ d st, ∃ t, execute d s st = .ok () t) ∧
    (∀ d₁ d₂ st₁ st₂, (evaluate d₁ e).fault? st₁ = (evaluate d₂ e).fault? st₂) ∧
    (e.IsProper → ∀ d st, ∃ v t, evaluate d e st = .ok v t) := by
  refine ⟨?_, ?_, ?_, ?_⟩
  · intro d₁ d₂ st₁ st₂
    rw [Eval.ends_execute s st₁, Eval.ends_execute s st₂]
  · intro h d st
    exact Eval.exists_execute_ok (Stmt.fault?_eq_none s h) st
  · intro d₁ d₂ st₁ st₂
    rw [Eval.ends_evaluate e st₁, Eval.ends_evaluate e st₂]
  · intro h d st
    exact Eval.exists_evaluate_ok h.fault?_eq_none st

-- $list[][0] = f($x = 1)
def appendExpr (l : Location) : Expr :=
  .assign none (.element (.slot (.var "list" l) l) (.literal (.int 0) l) l)
    (.call ⟨"f", l⟩ [.assign none (.var "x" l) (.literal (.int 1) l) l] l) l

-- function append($y = [1]) { $list[][0] = f($x = 1); }
def appendStmt (l : Location) : Stmt :=
  .functionDecl ⟨⟨"append", l⟩, [⟨"y", some (.array [.plain (.literal (.int 1) l)] .short l), l⟩],
    none⟩ ⟨[.expr (appendExpr l) l], l⟩ l

theorem fatality_is_syntactic_append :
    (appendStmt default).IsProper ∧ (appendExpr default).IsProper ∧
    (∀ d st, ∃ t, execute d (appendStmt default) st = .ok () t) ∧
    (∀ d st, ∃ v t, evaluate d (appendExpr default) st = .ok v t) := by
  have hs : (appendStmt default).IsProper := by decide
  have he : (appendExpr default).IsProper := by decide
  obtain ⟨-, hexecute, -, hevaluate⟩ := fatality_is_syntactic (appendStmt default) (appendExpr default)
  exact ⟨hs, he, hexecute hs, hevaluate he⟩

end PhpLint
