import PhpLint.Syntax.NodeKind
import PhpLint.Value.Basic

namespace PhpLint

-- A node with the values of its direct operands, as it is handed to the passes.
inductive Node where
  | expr (expression : Expr) (operands : List Value)
  | stmt (statement : Stmt) (operands : List Value)
  | method (method : Method)

namespace Node

def kind : Node → NodeKind
  | expr e _ => e.kind
  | stmt s _ => s.kind
  | method _ => .method

def location : Node → Location
  | expr e _ => e.location
  | stmt s _ => s.location
  | method m => m.location

def operands : Node → List Value
  | expr _ operands | stmt _ operands => operands
  | method _ => []

end Node

end PhpLint
