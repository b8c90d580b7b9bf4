import PhpLint.Analysis.Assigned
import PhpLint.Analysis.State

namespace PhpLint

-- A step of the analysis. A fatal end keeps the state that was reached.
abbrev Eval := EStateM Fatal State

namespace Eval

variable {α : Type}

def fatal (cause : FatalCause) (location : Location) : Eval α :=
  throw ⟨cause, location⟩

def visit (d : Dispatcher) (node : Node) : Eval Unit :=
  modify (·.visit d node)

def forget (names : List String) : Eval Unit :=
  modify fun s => { s with scope := s.scope.forget names }

-- Runs a step in a scope of its own. The scope from before is back in any case.
def inScope (scope : Scope) (step : Eval α) : Eval α := fun s =>
  match step { s with scope } with
  | .ok result t => .ok result { t with scope := s.scope }
  | .error error t => .error error { t with scope := s.scope }

-- Runs a step that may not be reached. Its bindings are undone unless it ends fatally.
def onBranch (step : Eval Unit) : Eval Unit := do
  let before := (← get).scope
  step
  modify fun s => { s with scope := before }

def operate (op : BinaryOp) (left right : Value) (location : Location) : Eval Value := do
  let outcome := Value.binary op left right
  if let some hazard := outcome.hazard then modify (·.report (hazard.issue location))
  return outcome.value

-- What the target of a compound assignment holds. Only variables are tracked.
def current (target : Expr) : Eval Value := do
  match target with
  | .var name _ => return (← get).valueOf name
  | _ => return .unknown

def bindVariable (name : String) (value : Value) : Eval Unit :=
  modify fun s => { s with scope := s.scope.put name value }

-- A write to an element changes the whole array.
def store (target : Expr) (value : Value) : Eval Unit :=
  match target with
  | .var name location =>
    if name = "this" then fatal .assignsThis location else bindVariable name value
  | .element container .. | .slot container _ =>
    match container.root? with
    | some name => bindVariable name .unknown
    | none => pure ()
  | _ => pure ()

end Eval

open Eval

-- Operands are evaluated from left to right, then the node is handed to the passes with
-- their values, and then its own value is computed. What is read to find the target of
-- an assignment is evaluated before the value that is assigned.
mutual
def evaluate (d : Dispatcher) (e : Expr) : Eval Value := do
  match e with
  | .literal value _ =>
    visit d (.expr e [])
    return value.toValue
  | .var name _ =>
    visit d (.expr e [])
    return (← get).valueOf name
  | .constant name _ =>
    visit d (.expr e [])
    return (← get).constant name
  | .assign op target value location =>
    if target.isAssignable then
      evaluateTarget d target
      let value ← evaluate d value
      visit d (.expr e [value])
      let result ←
        match op with
        | some op => operate op (← current target) value location
        | none => pure value
      store target result
      return result
    else fatal .notAssignable target.location
  | .binary op left right location _ =>
    let left ← evaluate d left
    let right ← evaluate d right
    visit d (.expr e [left, right])
    operate op left right location
  | .unary op operand _ _ =>
    let operand ← evaluate d operand
    visit d (.expr e [operand])
    return Value.unary op operand
  | .cast type operand _ =>
    let operand ← evaluate d operand
    visit d (.expr e [operand])
    return Value.cast type operand
  | .array items _ _ =>
    let elements ← evaluateItems d items
    visit d (.expr e (elements.map Prod.snd))
    return Value.ofElements elements
  | .call _ arguments _ =>
    let arguments ← evaluateAll d arguments
    visit d (.expr e arguments)
    return .unknown
  | .staticCall _ _ arguments _ =>
    let arguments ← evaluateAll d arguments
    visit d (.expr e arguments)
    return .unknown
  | .methodCall object _ arguments _ =>
    let _ ← evaluate d object
    let arguments ← evaluateAll d arguments
    visit d (.expr e arguments)
    return .unknown
  | .new owner arguments _ =>
    let arguments ← evaluateAll d arguments
    visit d (.expr e arguments)
    return .object (dropSeparators owner.name)
  | .property object _ _ =>
    let object ← evaluate d object
    visit d (.expr e [object])
    return .unknown
  | .element container index _ =>
    let container ← evaluate d container
    let index ← evaluate d index
    visit d (.expr e [container, index])
    return Value.element container index
  | .slot _ location => fatal .readsSlot location
  | .interpolated _ =>
    visit d (.expr e [])
    return .any .string
  | .invalid location => fatal .invalidExpression location

def evaluateTarget (d : Dispatcher) (target : Expr) : Eval Unit := do
  match target with
  | .property object _ _ =>
    let _ ← evaluate d object
  | .element container index _ =>
    evaluateTarget d container
    let _ ← evaluate d index
  | .slot container _ => evaluateTarget d container
  | _ => pure ()

def evaluateAll (d : Dispatcher) : List Expr → Eval (List Value)
  | [] => return []
  | e :: es => do
    let value ← evaluate d e
    return value :: (← evaluateAll d es)

def evaluateItems (d : Dispatcher) : List ArrayItem → Eval (List (Option Value × Value))
  | [] => return []
  | .plain value :: items => do
    let value ← evaluate d value
    return (none, value) :: (← evaluateItems d items)
  | .keyed key value :: items => do
    let key ← evaluate d key
    let value ← evaluate d value
    return (some key, value) :: (← evaluateItems d items)
end

-- The scope in which a body starts. Defaults are evaluated outside of it.
def parameterScope (d : Dispatcher) : Scope → List Parameter → Eval Scope
  | scope, [] => return scope
  | scope, parameter :: rest => do
    if let some default := parameter.default then
      let _ ← evaluate d default
    parameterScope d (scope.put parameter.name (.argument parameter.name)) rest

def methodScope (className : String) (modifiers : List Modifier) (scope : Scope) : Scope :=
  if Modifier.Static ∈ modifiers then scope else scope.put "this" (.object className)

-- Both branches of a condition start from the scope after it. What either of them may
-- assign is unknown afterwards. A loop may have run before its condition is evaluated.
mutual
def execute (d : Dispatcher) (s : Stmt) : Eval Unit := do
  match s with
  | .expr e _ =>
    let value ← evaluate d e
    visit d (.stmt s [value])
  | .echo es _ =>
    let values ← evaluateAll d es
    visit d (.stmt s values)
  | .ret none _ => visit d (.stmt s [])
  | .ret (some e) _ =>
    let value ← evaluate d e
    visit d (.stmt s [value])
  | .ifThen condition thenBranch _ =>
    let value ← evaluate d condition
    visit d (.stmt s [value])
    onBranch (execute d thenBranch)
    forget thenBranch.assigned
  | .ifElse condition thenBranch elseBranch _ =>
    let value ← evaluate d condition
    visit d (.stmt s [value])
    onBranch (execute d thenBranch)
    onBranch (execute d elseBranch)
    forget (thenBranch.assigned ++ elseBranch.assigned)
  | .loop condition body _ =>
    forget (condition.assigned ++ body.assigned)
    let value ← evaluate d condition
    visit d (.stmt s [value])
    execute d body
    forget (condition.assigned ++ body.assigned)
  | .block ⟨statements, _⟩ =>
    visit d (.stmt s [])
    executeAll d statements
  | .html _ => visit d (.stmt s [])
  | .functionDecl signature ⟨statements, _⟩ _ =>
    visit d (.stmt s [])
    let scope ← parameterScope d [] signature.parameters
    inScope scope (executeAll d statements)
  | .classDecl header methods _ =>
    visit d (.stmt s [])
    executeMethods d header.name.name methods
  | .constDecl name e _ =>
    let value ← evaluate d e
    visit d (.stmt s [value])
    if value.isKnown then
      modify fun s => { s with constants := s.constants.put name.name value }
  | .invalid location => fatal .invalidStatement location

def executeAll (d : Dispatcher) : List Stmt → Eval Unit
  | [] => pure ()
  | s :: ss => do
    execute d s
    executeAll d ss

def executeMethods (d : Dispatcher) (className : String) : List Method → Eval Unit
  | [] => pure ()
  | method :: methods => do
    visit d (.method method)
    match method with
    | ⟨_, _, none, _⟩ => pure ()
    | ⟨signature, modifiers, some ⟨statements, _⟩, _⟩ =>
      let scope ← parameterScope d [] signature.parameters
      inScope (methodScope className modifiers scope) (executeAll d statements)
    executeMethods d className methods
end

-- A statement of the program. If it ends fatally, a single issue takes the place of
-- those it has reported.
def runStatement (d : Dispatcher) (s : State) (statement : Stmt) : State :=
  match execute d statement s with
  | .ok () t => t
  | .error fatal t => { t with issues := (t.issues.rollback s.issues.length).report fatal.issue }

def run (d : Dispatcher) (s : State) (statements : List Stmt) : State :=
  statements.foldl (runStatement d) s

end PhpLint
