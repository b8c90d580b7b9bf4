import PhpLint.Operator
import PhpLint.Source.Location

namespace PhpLint

structure Identifier where
  name : String
  location : Location
  deriving DecidableEq, Repr

structure DocComment where
  text : String
  location : Location
  deriving DecidableEq, Repr

inductive Literal where
  | int (n : Int64)
  | float (x : Float)
  | string (s : String)
  | bool (b : Bool)
  | null
  deriving DecidableEq, Repr

-- An array is written with the word array and parentheses, or with brackets.
inductive ArrayStyle where
  | long | short
  deriving DecidableEq, Repr

-- An expression with its place in the source. A slot is the place after the last
-- element of an array. Where an operand is missing an invalid expression stands for it.
mutual
inductive Expr where
  | literal (value : Literal) (location : Location)
  | var (name : String) (location : Location)
  | constant (name : String) (location : Location)
  | assign (op : Option BinaryOp) (target value : Expr) (location : Location)
  | binary (op : BinaryOp) (left right : Expr) (location opLocation : Location)
  | unary (op : UnaryOp) (operand : Expr) (location opLocation : Location)
  | cast (type : CastType) (operand : Expr) (location : Location)
  | array (items : List ArrayItem) (style : ArrayStyle) (location : Location)
  | call (name : Identifier) (arguments : List Expr) (location : Location)
  | methodCall (object : Expr) (method : Identifier) (arguments : List Expr) (location : Location)
  | staticCall (owner method : Identifier) (arguments : List Expr) (location : Location)
  | new (owner : Identifier) (arguments : List Expr) (location : Location)
  | property (object : Expr) (name : Identifier) (location : Location)
  | element (container index : Expr) (location : Location)
  | slot (container : Expr) (location : Location)
  | interpolated (location : Location)
  | invalid (location : Location)
  deriving Inhabited

inductive ArrayItem where
  | plain (value : Expr)
  | keyed (key value : Expr)
end

structure Parameter where
  name : String
  default : Option Expr
  location : Location

inductive Modifier where
  | Public | Protected | Private | Static | Abstract | Final
  deriving DecidableEq, Repr

structure Signature where
  name : Identifier
  parameters : List Parameter
  doc : Option DocComment

structure ClassHeader where
  name : Identifier
  parent : Option Identifier
  modifiers : List Modifier
  doc : Option DocComment

mutual
inductive Stmt where
  | expr (expression : Expr) (location : Location)
  | echo (expressions : List Expr) (location : Location)
  | ret (value : Option Expr) (location : Location)
  | ifThen (condition : Expr) (thenBranch : Stmt) (location : Location)
  | ifElse (condition : Expr) (thenBranch elseBranch : Stmt) (location : Location)
  | loop (condition : Expr) (body : Stmt) (location : Location)
  | block (body : Block)
  | html (location : Location)
  | functionDecl (signature : Signature) (body : Block) (location : Location)
  | classDecl (header : ClassHeader) (methods : List Method) (location : Location)
  | constDecl (name : Identifier) (value : Expr) (location : Location)
  | invalid (location : Location)

structure Block where
  statements : List Stmt
  location : Location

-- A method without a body is abstract.
structure Method where
  signature : Signature
  modifiers : List Modifier
  body : Option Block
  location : Location
end

namespace Expr

def location : Expr → Location
  | literal _ l | var _ l | constant _ l | assign _ _ _ l | binary _ _ _ l _ | unary _ _ l _
  | cast _ _ l | array _ _ l | call _ _ l | methodCall _ _ _ l | staticCall _ _ _ l | new _ _ l
  | property _ _ l | element _ _ l | slot _ l | interpolated l | invalid l => l

-- What can stand on the left of an assignment.
def isAssignable : Expr → Bool
  | var .. | property .. | element .. | slot .. => true
  | _ => false

-- The number of nodes on the longest path down to a leaf.
mutual
def height : Expr → Nat
  | literal .. | var .. | constant .. | interpolated .. | invalid .. => 1
  | assign _ target value _ => max target.height value.height + 1
  | binary _ left right _ _ => max left.height right.height + 1
  | unary _ operand _ _ => operand.height + 1
  | cast _ operand _ => operand.height + 1
  | array items _ _ => itemsHeight items + 1
  | call _ arguments _ => listHeight arguments + 1
  | methodCall object _ arguments _ => max object.height (listHeight arguments) + 1
  | staticCall _ _ arguments _ => listHeight arguments + 1
  | new _ arguments _ => listHeight arguments + 1
  | property object _ _ => object.height + 1
  | element container index _ => max container.height index.height + 1
  | slot container _ => container.height + 1

def listHeight : List Expr → Nat
  | [] => 0
  | e :: es => max e.height (listHeight es)

def itemsHeight : List ArrayItem → Nat
  | [] => 0
  | .plain value :: items => max value.height (itemsHeight items)
  | .keyed key value :: items => max (max key.height value.height) (itemsHeight items)
end

end Expr

namespace Stmt

def location : Stmt → Location
  | expr _ l | echo _ l | ret _ l | ifThen _ _ l | ifElse _ _ _ l | loop _ _ l
  | block ⟨_, l⟩ | html l | functionDecl _ _ l | classDecl _ _ l | constDecl _ _ l | invalid l => l

end Stmt

end PhpLint
