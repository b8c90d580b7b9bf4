import PhpLint.Syntax.Tree

namespace PhpLint

-- The kind of a node, by which passes ask for nodes. Every operator is a kind of its own.
inductive NodeKind where
  | literal | var | constant | assign | cast | array
  | call | methodCall | staticCall | new | property | element | interpolated | invalidExpr
  | binary (op : BinaryOp)
  | unary (op : UnaryOp)
  | exprStmt | echo | ret | condition | loop | block | html
  | functionDecl | classDecl | method | constDecl | invalidStmt
  deriving DecidableEq, Repr

namespace NodeKind

def all : List NodeKind :=
  [literal, var, constant, assign, cast, array, call, methodCall, staticCall, new, property,
    element, interpolated, invalidExpr] ++
    BinaryOp.all.map binary ++ UnaryOp.all.map unary ++
    [exprStmt, echo, ret, condition, loop, block, html, functionDecl, classDecl, method, constDecl,
      invalidStmt]

def arithmetic : List NodeKind :=
  [.add, .subtract, .multiply, .divide, .modulo, .power].map binary

def comparisons : List NodeKind :=
  [.equal, .notEqual, .identical, .notIdentical, .smaller, .smallerOrEqual, .greater,
    .greaterOrEqual, .spaceship].map binary

theorem mem_all (kind : NodeKind) : kind ∈ all := by
  cases kind with
  | binary op => simp [all, BinaryOp.mem_all]
  | unary op => cases op <;> decide
  | _ => decide

theorem nodup_all : all.Nodup := by
  decide

end NodeKind

def Expr.kind : Expr → NodeKind
  | literal .. => .literal
  | var .. => .var
  | constant .. => .constant
  | assign .. => .assign
  | binary op .. => .binary op
  | unary op .. => .unary op
  | cast .. => .cast
  | array .. => .array
  | call .. => .call
  | methodCall .. => .methodCall
  | staticCall .. => .staticCall
  | new .. => .new
  | property .. => .property
  | element .. | slot .. => .element
  | interpolated .. => .interpolated
  | invalid .. => .invalidExpr

def Stmt.kind : Stmt → NodeKind
  | expr .. => .exprStmt
  | echo .. => .echo
  | ret .. => .ret
  | ifThen .. | ifElse .. => .condition
  | loop .. => .loop
  | block .. => .block
  | html .. => .html
  | functionDecl .. => .functionDecl
  | classDecl .. => .classDecl
  | constDecl .. => .constDecl
  | invalid .. => .invalidStmt

end PhpLint
