import PhpLint.Analysis.Assigned

namespace PhpLint

-- An expression and all those that it is made of, each in front of its operands.
mutual
def Expr.parts (e : Expr) : List Expr :=
  e :: match e with
    | .assign _ target value _ => target.parts ++ value.parts
    | .binary _ left right _ _ => left.parts ++ right.parts
    | .unary _ operand _ _ => operand.parts
    | .cast _ operand _ => operand.parts
    | .array items _ _ => itemParts items
    | .call _ arguments _ => listParts arguments
    | .staticCall _ _ arguments _ => listParts arguments
    | .new _ arguments _ => listParts arguments
    | .methodCall object _ arguments _ => object.parts ++ listParts arguments
    | .property object _ _ => object.parts
    | .element container index _ => container.parts ++ index.parts
    | .slot container _ => container.parts
    | .literal .. | .var .. | .constant .. | .interpolated .. | .invalid .. => []

def listParts : List Expr → List Expr
  | [] => []
  | e :: es => e.parts ++ listParts es

def itemParts : List ArrayItem → List Expr
  | [] => []
  | .plain value :: items => value.parts ++ itemParts items
  | .keyed key value :: items => key.parts ++ value.parts ++ itemParts items
end

theorem mem_listParts {part : Expr} {es : List Expr} :
    part ∈ listParts es ↔ ∃ e ∈ es, part ∈ e.parts := by
  induction es with
  | nil => simp [listParts]
  | cons e es ih => simp [listParts, ih]

theorem listParts_subset {es fs : List Expr} (h : es ⊆ fs) : listParts es ⊆ listParts fs := by
  intro part hpart
  obtain ⟨e, he, hpart⟩ := mem_listParts.mp hpart
  exact mem_listParts.mpr ⟨e, h he, hpart⟩

def Expr.isVariable : Expr → Bool
  | .var .. => true
  | _ => false

-- A function or a method with a body. In a method that is not static the class is that
-- of the object it works on.
structure Callable where
  parameters : List Parameter
  owner : Option String
  body : List Stmt

def Callable.defaults (c : Callable) : List Expr :=
  c.parameters.filterMap (·.default)

def Method.callable? (owner : String) : Method → Option Callable
  | ⟨_, _, none, _⟩ => none
  | ⟨signature, modifiers, some ⟨statements, _⟩, _⟩ =>
    let owner := if Modifier.Static ∈ modifiers then none else some owner
    some ⟨signature.parameters, owner, statements⟩

namespace Stmt

def declaresConstant : Stmt → Bool
  | constDecl .. => true
  | _ => false

-- The expressions that stand in a statement itself.
def operands : Stmt → List Expr
  | expr e _ => [e]
  | echo es _ => es
  | ret value _ => value.toList
  | ifThen condition _ _ | ifElse condition _ _ _ | loop condition _ _ => [condition]
  | constDecl _ e _ => [e]
  | block _ | html _ | functionDecl .. | classDecl .. | invalid _ => []

-- What a statement declares itself.
def callables : Stmt → List Callable
  | functionDecl signature body _ => [⟨signature.parameters, none, body.statements⟩]
  | classDecl header methods _ => methods.filterMap (Method.callable? header.name.name)
  | _ => []

def defaults (s : Stmt) : List Expr :=
  s.callables.flatMap Callable.defaults

end Stmt

-- A statement and all those in it, also in the bodies of what it declares.
mutual
def Stmt.parts (s : Stmt) : List Stmt :=
  s :: match s with
    | .ifThen _ thenBranch _ => thenBranch.parts
    | .ifElse _ thenBranch elseBranch _ => thenBranch.parts ++ elseBranch.parts
    | .loop _ body _ => body.parts
    | .block ⟨statements, _⟩ => blockParts statements
    | .functionDecl _ ⟨statements, _⟩ _ => blockParts statements
    | .classDecl _ methods _ => methodParts methods
    | .expr .. | .echo .. | .ret .. | .html _ | .constDecl .. | .invalid _ => []

def blockParts : List Stmt → List Stmt
  | [] => []
  | s :: ss => s.parts ++ blockParts ss

def methodParts : List Method → List Stmt
  | [] => []
  | ⟨_, _, none, _⟩ :: methods => methodParts methods
  | ⟨_, _, some ⟨statements, _⟩, _⟩ :: methods => blockParts statements ++ methodParts methods
end

end PhpLint
