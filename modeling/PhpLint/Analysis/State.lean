import PhpLint.Analysis.Dispatcher
import PhpLint.Value.Array
import PhpLint.Value.Operate

namespace PhpLint

-- A name without the separators of namespaces in front of it.
def dropSeparators (name : String) : String :=
  String.ofList (name.toList.dropWhile (· == '\\'))

-- The values of variables or constants by name.
abbrev Scope := Entries String Value

-- The names keep being bound, but to nothing that is known.
def Scope.forget (scope : Scope) (names : List String) : Scope :=
  scope.map fun (name, value) => (name, if name ∈ names then .unknown else value)

-- A node that was handed to the dispatcher, and the runs of passes it led to.
structure Event where
  node : Node
  runs : List (Nat × Bool)

-- Variables and constants, the issues so far, and what was handed to the dispatcher,
-- the latest first.
structure State where
  scope : Scope := []
  constants : Scope := []
  issues : Issues := []
  events : List Event := []

-- Why a statement cannot be analysed.
inductive FatalCause where
  | invalidStatement
  | invalidExpression
  | notAssignable
  | assignsThis
  | readsSlot
  deriving DecidableEq, Repr

def FatalCause.message : FatalCause → String
  | invalidStatement => "Invalid statement."
  | invalidExpression => "Invalid expression."
  | notAssignable => "Cannot assign to this expression."
  | assignsThis => "Cannot re-assign $this."
  | readsSlot => "Cannot use [] for reading."

structure Fatal where
  cause : FatalCause
  location : Location
  deriving DecidableEq, Repr

def Fatal.issue (fatal : Fatal) : Issue :=
  ⟨"compiler.fatal", .fatal, fatal.cause.message, fatal.location⟩

def Hazard.message : Hazard → String
  | divisionByZero => "Division by zero."
  | moduloByZero => "Modulo by zero."

def Hazard.issue (hazard : Hazard) (location : Location) : Issue :=
  ⟨"division.zero", .warning, hazard.message, location⟩

def Literal.toValue : Literal → Value
  | int n => .int n
  | float x => .float x
  | string s => .string s
  | bool b => .bool b
  | null => .null

def builtinConstants : Scope :=
  [("PHP_INT_MAX", .int 9223372036854775807),
    ("PHP_INT_MIN", .int (-9223372036854775808)),
    ("PHP_INT_SIZE", .int 8),
    ("PHP_FLOAT_EPSILON", .float (Float.ofBits 0x3cb0000000000000)),
    ("PHP_FLOAT_MAX", .float (Float.ofBits 0x7fefffffffffffff)),
    ("PHP_FLOAT_MIN", .float (Float.ofBits 0x0010000000000000)),
    ("PHP_EOL", .string "\n"),
    ("DIRECTORY_SEPARATOR", .string "/"),
    ("M_PI", .float (Float.ofBits 0x400921fb54442d18)),
    ("M_E", .float (Float.ofBits 0x4005bf0a8b145769)),
    ("NAN", .float (Float.ofBits 0x7ff8000000000000)),
    ("INF", .float (Float.ofBits 0x7ff0000000000000)),
    ("E_ERROR", .int 1),
    ("E_WARNING", .int 2),
    ("E_NOTICE", .int 8),
    ("E_ALL", .int 32767)]

namespace State

def valueOf (s : State) (name : String) : Value :=
  (s.scope.get? name).getD .unknown

-- Declared constants come before those of the language.
def constant (s : State) (name : String) : Value :=
  let name := dropSeparators name
  (s.constants.get? name).getD ((builtinConstants.get? name).getD (.constant name))

def report (s : State) (issue : Issue) : State :=
  { s with issues := s.issues.report issue }

def visit (s : State) (d : Dispatcher) (node : Node) : State :=
  let dispatched := d.dispatch node s.issues
  { s with issues := dispatched.context, events := ⟨node, dispatched.runs⟩ :: s.events }

end State

end PhpLint
