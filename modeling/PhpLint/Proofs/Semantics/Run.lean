import PhpLint.Analysis.State
import PhpLint.Proofs.Analysis.Fatality
import PhpLint.Proofs.Value.Refinement

namespace PhpLint

-- Values with a content all the way down.
mutual
def Value.isComplete : Value → Bool
  | .null | .bool _ | .int _ | .float _ | .string _ => true
  | .array entries => areComplete entries
  | .unknown | .any _ | .object _ | .argument _ | .constant _ => false

def areComplete : List (Key × Value) → Bool
  | [] => true
  | (_, value) :: entries => value.isComplete && areComplete entries
end

def Value.isConcrete : Value → Bool
  | .object _ => true
  | value => value.isComplete

-- What a program computes with: complete values and objects.
abbrev Datum := { value : Value // value.isConcrete = true }

def Datum.isTrue (v : Datum) : Bool :=
  v.val.truthy? == some true

abbrev Store := String → Option Datum

namespace Store

def empty : Store :=
  fun _ => none

def put (σ : Store) (name : String) (v : Datum) : Store :=
  fun other => if other = name then some v else σ other

-- A variable that is not bound may have any value.
def Holds (σ : Store) (name : String) (v : Datum) : Prop :=
  ∀ w, σ name = some w → w = v

end Store

-- A part of a program as it is executed. It relates the store at its beginning to the
-- nodes that are reached, in order, and to the result with the store at its end, if it
-- is not stopped before.
def Run (α : Type) : Type :=
  Store → List Node → Option (α × Store) → Prop

namespace Run

variable {α : Type}

instance : Monad Run where
  pure a σ trace outcome := trace = [] ∧ outcome = some (a, σ)
  bind m f σ trace outcome :=
    m σ trace none ∧ outcome = none ∨
      ∃ a τ first rest, m σ first (some (a, τ)) ∧ f a τ rest outcome ∧ trace = first ++ rest

-- A run may be interrupted wherever it reaches a node. So the runs of a program that
-- does not end are those of its finite parts.
def reach (node : Node) : Run Unit :=
  fun σ trace outcome => trace = [node] ∧ (outcome = none ∨ outcome = some ((), σ))

def stop : Run α :=
  fun _ trace outcome => trace = [] ∧ outcome = none

-- Any value that is described.
def choose (told : Value) : Run Datum :=
  fun σ trace outcome => trace = [] ∧ ∃ v : Datum, v.val.Refines told ∧ outcome = some (v, σ)

def either (m n : Run α) : Run α :=
  fun σ trace outcome => m σ trace outcome ∨ n σ trace outcome

def read (name : String) : Run Datum :=
  fun σ trace outcome => trace = [] ∧ ∃ v, σ.Holds name v ∧ outcome = some (v, σ)

def write (name : String) (v : Datum) : Run Unit :=
  fun σ trace outcome => trace = [] ∧ outcome = some ((), σ.put name v)

-- Rounds follow each other until one of them gives a result.
inductive Repeats (round : Run (Option α)) : Run α
  | stopped {σ trace} : round σ trace none → Repeats round σ trace none
  | ended {σ trace a τ} : round σ trace (some (some a, τ)) → Repeats round σ trace (some (a, τ))
  | again {σ τ first rest outcome} : round σ first (some (none, τ)) →
    Repeats round τ rest outcome → Repeats round σ (first ++ rest) outcome

-- There is a run that is not stopped and gives the result.
def Gives (m : Run α) (σ : Store) (a : α) (τ : Store) : Prop :=
  ∃ trace, m σ trace (some (a, τ))

section Gives

variable {β : Type} {σ τ ρ : Store}

theorem Gives.bind {m : Run α} {f : α → Run β} {a : α} {b : β} (hm : m.Gives σ a τ)
    (hf : (f a).Gives τ b ρ) : (m >>= f).Gives σ b ρ := by
  obtain ⟨first, hm⟩ := hm
  obtain ⟨rest, hf⟩ := hf
  exact ⟨first ++ rest, .inr ⟨a, τ, first, rest, hm, hf, rfl⟩⟩

theorem Gives.repeats {round : Run (Option α)} {a : α} (h : round.Gives σ (some a) τ) :
    (Repeats round).Gives σ a τ := by
  obtain ⟨trace, h⟩ := h
  exact ⟨trace, .ended h⟩

theorem gives_pure (a : α) : (pure a : Run α).Gives σ a σ :=
  ⟨[], rfl, rfl⟩

theorem gives_reach (node : Node) : (reach node).Gives σ () σ :=
  ⟨[node], rfl, .inr rfl⟩

theorem gives_choose {told : Value} (v : Datum) (h : v.val.Refines told) :
    (choose told).Gives σ v σ :=
  ⟨[], rfl, v, h, rfl⟩

theorem gives_read {name : String} (v : Datum) (h : σ.Holds name v) : (read name).Gives σ v σ :=
  ⟨[], rfl, v, h, rfl⟩

theorem gives_write (name : String) (v : Datum) : (write name v).Gives σ () (σ.put name v) :=
  ⟨[], rfl, rfl⟩

end Gives

end Run

namespace BinaryOp

def isShift : BinaryOp → Bool
  | shiftLeft | shiftRight => true
  | _ => false

def isConditional : BinaryOp → Bool
  | booleanAnd | booleanOr | logicalAnd | logicalOr => true
  | _ => false

-- What the truth of the left operand decides without the right one.
def decided? : BinaryOp → Bool → Option Bool
  | booleanAnd, false | logicalAnd, false => some false
  | booleanOr, true | logicalOr, true => some true
  | _, _ => none

theorem isConditional_of_decided? {op : BinaryOp} {truth b : Bool}
    (h : op.decided? truth = some b) : op.isConditional = true := by
  cases op with
  | booleanAnd | booleanOr | logicalAnd | logicalOr => rfl
  | _ => cases h

end BinaryOp

-- Neither a division by zero nor a shift by a negative amount.
def BinaryOp.runsOn (op : BinaryOp) (v w : Value) : Bool :=
  (Value.binary op v w).hazard.isNone &&
    !(op.isShift && w.toNumber?.any (·.toWord.toInt < 0))

open Run

def BinaryOp.runs (op : BinaryOp) (v w : Datum) : Run Datum :=
  if op.runsOn v.val w.val then choose (Value.binary op v.val w.val).value else stop

namespace Expr

-- What the target of a compound assignment holds. Elements and properties may hold
-- anything.
def held : Expr → Run Datum
  | var name _ => read name
  | _ => choose .unknown

-- A write to an element leaves any value in its variable.
def takes (target : Expr) (v : Datum) : Run Unit := do
  match target with
  | var name _ => write name v
  | element container .. | slot container _ =>
    match container.root? with
    | some name => write name (← choose .unknown)
    | none => pure ()
  | _ => pure ()

end Expr

-- Operands are executed in the order of the analysis, and a node is reached with the
-- values of its operands. Of calls, properties and constants that are declared elsewhere
-- nothing is known.
mutual
def Expr.runs (e : Expr) : Run Datum := do
  match e with
  | .literal value _ =>
    reach (.expr e [])
    choose value.toValue
  | .var name _ =>
    reach (.expr e [])
    read name
  | .constant name _ =>
    reach (.expr e [])
    choose (State.constant {} name)
  | .assign op target value _ =>
    target.locates
    let v ← value.runs
    reach (.expr e [v.val])
    let result ←
      match op with
      | some op => op.runs (← target.held) v
      | none => pure v
    target.takes result
    return result
  | .binary op left right _ _ =>
    let v ← left.runs
    match op.decided? v.isTrue with
    | some b =>
      reach (.expr e [v.val])
      choose (.bool b)
    | none =>
      let w ← right.runs
      reach (.expr e [v.val, w.val])
      op.runs v w
  | .unary op operand _ _ =>
    let v ← operand.runs
    reach (.expr e [v.val])
    choose (Value.unary op v.val)
  | .cast type operand _ =>
    let v ← operand.runs
    reach (.expr e [v.val])
    choose (Value.cast type v.val)
  | .array items _ _ =>
    let elements ← itemsRuns items
    reach (.expr e (elements.map Prod.snd))
    choose (Value.ofElements elements)
  | .call _ arguments _ =>
    let values ← listRuns arguments
    reach (.expr e values)
    choose .unknown
  | .staticCall _ _ arguments _ =>
    let values ← listRuns arguments
    reach (.expr e values)
    choose .unknown
  | .methodCall object _ arguments _ =>
    let _ ← object.runs
    let values ← listRuns arguments
    reach (.expr e values)
    choose .unknown
  | .new owner arguments _ =>
    let values ← listRuns arguments
    reach (.expr e values)
    choose (.object (dropSeparators owner.name))
  | .property object _ _ =>
    let v ← object.runs
    reach (.expr e [v.val])
    choose .unknown
  | .element container index _ =>
    let v ← container.runs
    let w ← index.runs
    reach (.expr e [v.val, w.val])
    choose (Value.element v.val w.val)
  | .interpolated _ =>
    reach (.expr e [])
    choose (.any .string)
  | .slot .. | .invalid _ => stop

-- What is read to find the target of an assignment.
def Expr.locates (target : Expr) : Run Unit := do
  match target with
  | .property object _ _ =>
    let _ ← object.runs
  | .element container index _ =>
    container.locates
    let _ ← index.runs
  | .slot container _ => container.locates
  | _ => pure ()

def listRuns : List Expr → Run (List Value)
  | [] => return []
  | e :: es => do
    let v ← e.runs
    return v.val :: (← listRuns es)

def itemsRuns : List ArrayItem → Run (List (Option Value × Value))
  | [] => return []
  | .plain value :: items => do
    let v ← value.runs
    return (none, v.val) :: (← itemsRuns items)
  | .keyed key value :: items => do
    let k ← key.runs
    let v ← value.runs
    return (some k.val, v.val) :: (← itemsRuns items)
end

inductive Flow where
  | next | returned
  deriving DecidableEq, Repr

-- What a loop gives after its body, unless there is another round.
def Flow.leaves? : Flow → Option Flow
  | next => none
  | returned => some returned

def methodsReached : List Method → Run Unit
  | [] => pure ()
  | method :: methods => do
    reach (.method method)
    methodsReached methods

-- Bodies of functions and methods do not run where they are declared. Constants that the
-- program declares itself are not part of this semantics.
mutual
def Stmt.runs (s : Stmt) : Run Flow := do
  match s with
  | .expr e _ =>
    let v ← e.runs
    reach (.stmt s [v.val])
    return .next
  | .echo es _ =>
    let values ← listRuns es
    reach (.stmt s values)
    return .next
  | .ret none _ =>
    reach (.stmt s [])
    return .returned
  | .ret (some e) _ =>
    let v ← e.runs
    reach (.stmt s [v.val])
    return .returned
  | .ifThen condition thenBranch _ =>
    let v ← condition.runs
    reach (.stmt s [v.val])
    if v.isTrue then thenBranch.runs else return .next
  | .ifElse condition thenBranch elseBranch _ =>
    let v ← condition.runs
    reach (.stmt s [v.val])
    if v.isTrue then thenBranch.runs else elseBranch.runs
  | .loop condition body _ =>
    Repeats do
      let v ← condition.runs
      reach (.stmt s [v.val])
      if v.isTrue then return (← body.runs).leaves? else return some .next
  | .block ⟨statements, _⟩ =>
    reach (.stmt s [])
    blockRuns statements
  | .html _ =>
    reach (.stmt s [])
    return .next
  | .functionDecl .. =>
    reach (.stmt s [])
    return .next
  | .classDecl _ methods _ =>
    reach (.stmt s [])
    methodsReached methods
    return .next
  | .constDecl .. | .invalid _ => stop

def blockRuns : List Stmt → Run Flow
  | [] => return .next
  | s :: ss => do
    match ← s.runs with
    | .next => blockRuns ss
    | .returned => return .returned
end

-- A program stops at a statement that cannot be analysed.
def programRuns : List Stmt → Run Flow
  | [] => return .next
  | s :: ss => do
    if s.fault?.isNone then
      match ← s.runs with
      | .next => programRuns ss
      | .returned => return .returned
    else stop

-- Arguments are arbitrary. A default may be executed in place of a missing one.
def argumentsRun : List Parameter → Run Unit
  | [] => pure ()
  | parameter :: rest => do
    match parameter.default with
    | some default => either (do let _ ← default.runs) (pure ())
    | none => pure ()
    write parameter.name (← choose .unknown)
    argumentsRun rest

namespace Callable

-- The object that a method works on.
def receives (c : Callable) : Run Unit :=
  match c.owner with
  | some className => write "this" ⟨.object className, rfl⟩
  | none => pure ()

def runs (c : Callable) : Run Flow := do
  argumentsRun c.parameters
  c.receives
  blockRuns c.body

end Callable

end PhpLint
