import PhpLint.Syntax.Tree

namespace PhpLint

-- The variable that an access to an element starts from.
def Expr.root? : Expr → Option String
  | var name _ => some name
  | element container _ _ | slot container _ => container.root?
  | _ => none

-- The variables that an expression may assign.
mutual
def Expr.assigned : Expr → List String
  | .assign _ target value _ => target.root?.toList ++ target.assigned ++ value.assigned
  | .binary _ left right _ _ => left.assigned ++ right.assigned
  | .unary _ operand _ _ => operand.assigned
  | .cast _ operand _ => operand.assigned
  | .array items _ _ => itemsAssigned items
  | .call _ arguments _ => listAssigned arguments
  | .staticCall _ _ arguments _ => listAssigned arguments
  | .new _ arguments _ => listAssigned arguments
  | .methodCall object _ arguments _ => object.assigned ++ listAssigned arguments
  | .property object _ _ => object.assigned
  | .element container index _ => container.assigned ++ index.assigned
  | .slot container _ => container.assigned
  | .literal .. | .var .. | .constant .. | .interpolated .. | .invalid .. => []

def listAssigned : List Expr → List String
  | [] => []
  | e :: es => e.assigned ++ listAssigned es

def itemsAssigned : List ArrayItem → List String
  | [] => []
  | .plain value :: items => value.assigned ++ itemsAssigned items
  | .keyed key value :: items => key.assigned ++ value.assigned ++ itemsAssigned items
end

-- The variables that a statement may assign. Declarations have scopes of their own.
mutual
def Stmt.assigned : Stmt → List String
  | .expr e _ => e.assigned
  | .echo es _ => listAssigned es
  | .ret value _ => (value.map Expr.assigned).getD []
  | .ifThen condition thenBranch _ => condition.assigned ++ thenBranch.assigned
  | .ifElse condition thenBranch elseBranch _ =>
    condition.assigned ++ thenBranch.assigned ++ elseBranch.assigned
  | .loop condition body _ => condition.assigned ++ body.assigned
  | .block ⟨statements, _⟩ => blockAssigned statements
  | .constDecl _ value _ => value.assigned
  | .html _ | .functionDecl .. | .classDecl .. | .invalid _ => []

def blockAssigned : List Stmt → List String
  | [] => []
  | s :: ss => s.assigned ++ blockAssigned ss
end

end PhpLint
