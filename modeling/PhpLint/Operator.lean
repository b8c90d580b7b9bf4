namespace PhpLint

inductive BinaryOp where
  | add | subtract | multiply | divide | modulo | power | concat
  | bitwiseAnd | bitwiseOr | bitwiseXor | shiftLeft | shiftRight
  | booleanAnd | booleanOr | logicalAnd | logicalOr | logicalXor
  | equal | notEqual | identical | notIdentical
  | smaller | smallerOrEqual | greater | greaterOrEqual | spaceship
  deriving DecidableEq, Repr

namespace BinaryOp

def all : List BinaryOp :=
  [add, subtract, multiply, divide, modulo, power, concat, bitwiseAnd, bitwiseOr, bitwiseXor,
    shiftLeft, shiftRight, booleanAnd, booleanOr, logicalAnd, logicalOr, logicalXor, equal,
    notEqual, identical, notIdentical, smaller, smallerOrEqual, greater, greaterOrEqual, spaceship]

def symbol : BinaryOp → String
  | add => "+"
  | subtract => "-"
  | multiply => "*"
  | divide => "/"
  | modulo => "%"
  | power => "**"
  | concat => "."
  | bitwiseAnd => "&"
  | bitwiseOr => "|"
  | bitwiseXor => "^"
  | shiftLeft => "<<"
  | shiftRight => ">>"
  | booleanAnd => "&&"
  | booleanOr => "||"
  | logicalAnd => "and"
  | logicalOr => "or"
  | logicalXor => "xor"
  | equal => "=="
  | notEqual => "!="
  | identical => "==="
  | notIdentical => "!=="
  | smaller => "<"
  | smallerOrEqual => "<="
  | greater => ">"
  | greaterOrEqual => ">="
  | spaceship => "<=>"

def ofSymbol? (text : String) : Option BinaryOp :=
  all.find? (·.symbol == text)

theorem mem_all (op : BinaryOp) : op ∈ all := by
  cases op <;> decide

end BinaryOp

inductive UnaryOp where
  | minus | plus | booleanNot | bitwiseNot
  deriving DecidableEq, Repr

namespace UnaryOp

def all : List UnaryOp :=
  [minus, plus, booleanNot, bitwiseNot]

def symbol : UnaryOp → String
  | minus => "-"
  | plus => "+"
  | booleanNot => "!"
  | bitwiseNot => "~"

end UnaryOp

-- The type named by an explicit conversion such as (int).
inductive CastType where
  | int | float | string | bool | array | object | unset
  deriving DecidableEq, Repr

namespace CastType

def all : List CastType :=
  [int, float, string, bool, array, object, unset]

-- A type may have several names, in any case.
def ofName? (name : String) : Option CastType :=
  match name.toLower with
  | "int" | "integer" => some int
  | "float" | "double" | "real" => some float
  | "string" | "binary" => some string
  | "bool" | "boolean" => some bool
  | "array" => some array
  | "object" => some object
  | "unset" => some unset
  | _ => none

end CastType

end PhpLint
