import PhpLint.Syntax.Expression

namespace PhpLint.Syntax

open PhpLint.Syntax.Parser

-- The end of the code ends a statement too, and is left for the next one.
def terminator : Parser Unit := do
  unless ← isNext .closeTag do expectSymbol .semicolon .semicolon

-- The parsers for what is nested in a statement.
structure Parts where
  expression : Parser Expr
  statement : Parser (Option Stmt)

def condition (parts : Parts) : Parser Expr := do
  expectSymbol .parenLeft .leftParenthesis
  let condition ← parts.expression
  expectSymbol .parenRight .rightParenthesis
  return condition

-- The statement that another one controls. Where it is empty a block without
-- statements stands for it.
def controlled (parts : Parts) : Parser Stmt := do
  match ← parts.statement with
  | some statement => return statement
  | none => return .block ⟨[], ← last⟩

-- One more expression after a comma.
def anotherExpression (parts : Parts) (expressions : List Expr) :
    Parser (List Expr ⊕ List Expr) := do
  if ← skip (.symbol .comma) then return .inl ((← parts.expression) :: expressions)
  return .inr expressions.reverse

def echo (parts : Parts) (start : Option Location) : Parser Stmt := do
  let first ← parts.expression
  let expressions ← iterate (anotherExpression parts) [first]
  terminator
  return .echo expressions (← spanFrom start)

def returnedWith (parts : Parts) (start : Option Location) (isEmpty : Bool) : Parser Stmt := do
  let value ← if isEmpty then pure none else some <$> parts.expression
  terminator
  return .ret value (← spanFrom start)

def returned (parts : Parts) (start : Option Location) : Parser Stmt := do
  let isEmpty := (← isNext (.symbol .semicolon)) || (← isNext .closeTag)
  returnedWith parts start isEmpty

-- A condition with the statement it controls, and where it starts.
structure Clause where
  start : Option Location
  condition : Expr
  body : Stmt

def clause (parts : Parts) (start : Option Location) : Parser Clause := do
  let condition ← condition parts
  return ⟨start, condition, ← controlled parts⟩

-- The alternative of a clause is nested in it, so both end at the last place.
def Clause.toStmt (last : Location) (clause : Clause) : Option Stmt → Stmt
  | some alternative =>
    .ifElse clause.condition clause.body alternative (clause.start.elim last (·.cover last))
  | none => .ifThen clause.condition clause.body (clause.start.elim last (·.cover last))

-- One more condition after the word elseif, or after else and if.
def anotherClause (parts : Parts) (clauses : List Clause) :
    Parser (List Clause ⊕ (List Clause × Option Stmt)) := do
  let start ← location?
  if ← skip (.keyword .Elseif) then return .inl ((← clause parts start) :: clauses)
  if ← skip (.keyword .Else) then
    let start ← location?
    if ← skip (.keyword .If) then return .inl ((← clause parts start) :: clauses)
    return .inr (clauses.reverse, some (← controlled parts))
  return .inr (clauses.reverse, none)

-- After a clause: more of them, a final alternative, or nothing.
def alternatives (parts : Parts) : Parser (List Clause × Option Stmt) :=
  iterate (anotherClause parts) []

def conditional (parts : Parts) (start : Option Location) : Parser Stmt := do
  let first ← clause parts start
  let (clauses, final) ← alternatives parts
  let last ← last
  return first.toStmt last (clauses.foldr (fun clause next => some (clause.toStmt last next)) final)

def whileLoop (parts : Parts) (start : Option Location) : Parser Stmt := do
  let condition ← condition parts
  let body ← controlled parts
  return .loop condition body (← spanFrom start)

-- One more statement in front of a right brace.
def anotherStatement (parts : Parts) (statements : List Stmt) :
    Parser (List Stmt ⊕ List Stmt) := do
  if ← skip (.symbol .braceRight) then return .inr statements.reverse
  if (← get).items.isEmpty then throw (.endOfFile .rightBrace (← last))
  match ← parts.statement with
  | some statement => return .inl (statement :: statements)
  | none => return .inl statements

-- The rest of a block after its left brace, which is at the start.
def block (parts : Parts) (start : Location) : Parser Block := do
  let statements ← iterate (anotherStatement parts) []
  return ⟨statements, start.cover (← last)⟩

def constantDeclaration (parts : Parts) (start : Option Location) : Parser Stmt := do
  let name ← identifier .constantName
  expectSymbol .assign .equalsSign
  let value ← parts.expression
  terminator
  return .constDecl name value (← spanFrom start)

-- Types do not matter to the analysis.
def isTypePart : Token → Bool
  | .identifier _ | .symbol .question | .symbol .pipe | .keyword .Static => true
  | _ => false

def isReferenceMark : Token → Bool
  | .symbol .ampersand | .symbol .dot => true
  | _ => false

def returnType : Parser Unit := do
  if ← skip (.symbol .colon) then skipWhile isTypePart

def parameter (parts : Parts) : Parser Parameter := do
  let start ← location?
  skipWhile isTypePart
  skipWhile isReferenceMark
  match ← take .parameterName with
  | (.var name, _) =>
    let default ← if ← skip (.symbol .assign) then some <$> parts.expression else pure none
    return ⟨name, default, ← spanFrom start⟩
  | (_, location) => throw (.unexpectedToken .parameterName location)

def parameters (parts : Parts) : Parser (List Parameter) := do
  expectSymbol .parenLeft .parameterList
  let parameters ← separated .parenRight (parameter parts)
  expectSymbol .parenRight .commaOrRightParenthesis
  return parameters

-- What follows the word function, up to the body.
def signature (parts : Parts) (doc : Option DocComment) (expected : Expectation) :
    Parser Signature := do
  let _ ← skip (.symbol .ampersand)
  let name ← identifier expected
  let parameters ← parameters parts
  returnType
  return ⟨name, parameters, doc⟩

def body (parts : Parts) (expected : Expectation) : Parser Block := do
  expectSymbol .braceLeft expected
  block parts (← last)

def functionDeclaration (parts : Parts) (doc : Option DocComment) (start : Option Location) :
    Parser Stmt := do
  let signature ← signature parts doc .functionName
  let body ← body parts .functionBody
  return .functionDecl signature body (← spanFrom start)

def classModifier? : Token → Option Modifier
  | .keyword .Abstract => some .Abstract
  | .keyword .Final => some .Final
  | _ => none

def methodModifier? : Token → Option Modifier
  | .keyword .Public | .keyword .Var => some .Public
  | .keyword .Protected => some .Protected
  | .keyword .Private => some .Private
  | .keyword .Static => some .Static
  | .keyword .Abstract => some .Abstract
  | .keyword .Final => some .Final
  | _ => none

def anotherModifier (modifier? : Token → Option Modifier) (modifiers : List Modifier) :
    Parser (List Modifier ⊕ List Modifier) := do
  match (← peek?).bind modifier? with
  | some modifier =>
    advance
    return .inl (modifier :: modifiers)
  | none => return .inr modifiers.reverse

def modifiers (modifier? : Token → Option Modifier) : Parser (List Modifier) :=
  iterate (anotherModifier modifier?) []

-- Properties and constants of a class do not matter to the analysis.
def startsField : Token → Bool
  | .keyword .Const | .var _ | .identifier _ | .symbol .question => true
  | _ => false

-- One more token of a field that does not end it.
def anotherToken (_ : Unit) : Parser (Unit ⊕ Unit) := do
  match ← take .semicolon with
  | (.symbol .semicolon, _) => return .inr ()
  | _ => return .inl ()

def skipField : Parser Unit :=
  iterate anotherToken ()

def method (parts : Parts) (doc : Option DocComment) (modifiers : List Modifier)
    (start : Option Location) : Parser Method := do
  let signature ← signature parts doc .methodName
  let body ← if ← skip (.symbol .semicolon) then pure none else some <$> body parts .methodBody
  return ⟨signature, modifiers, body, ← spanFrom start⟩

def noMember : Parser (Option Method) := do
  let (_, location) ← take .classMember
  throw (.unexpectedToken .classMember location)

def fieldOrNone : Parser (Option Method) := do
  if (← peek?).any startsField then
    skipField
    return none
  noMember

def memberFrom (parts : Parts) (start : Option Location) (doc : Option DocComment) :
    Parser (Option Method) := do
  let modifiers ← modifiers methodModifier?
  if ← skip (.keyword .Function) then return some (← method parts doc modifiers start)
  fieldOrNone

def classMember (parts : Parts) : Parser (Option Method) := do
  let start ← location?
  let doc ← takeDoc
  memberFrom parts start doc

def parentClass? : Parser (Option Identifier) := do
  if ← skip (.keyword .Extends) then return some (← identifier .parentClassName)
  return none

def isInterfacePart : Token → Bool
  | .identifier _ | .symbol .comma => true
  | _ => false

-- One more member in front of a right brace.
def anotherMember (parts : Parts) (methods : List Method) :
    Parser (List Method ⊕ List Method) := do
  if ← skip (.symbol .braceRight) then return .inr methods.reverse
  match ← classMember parts with
  | some method => return .inl (method :: methods)
  | none => return .inl methods

def classMethods (parts : Parts) : Parser (List Method) :=
  iterate (anotherMember parts) []

def classDeclaration (parts : Parts) (doc : Option DocComment) (start : Option Location) :
    Parser Stmt := do
  let modifiers ← modifiers classModifier?
  expect (.keyword .Class) .classKeyword
  let name ← identifier .className
  let parent ← parentClass?
  skipWhile isInterfacePart
  expectSymbol .braceLeft .classBody
  let methods ← classMethods parts
  return .classDecl ⟨name, parent, modifiers, doc⟩ methods (← spanFrom start)

def expressionStatement (parts : Parts) (start : Option Location) : Parser Stmt := do
  let expression ← parts.expression
  terminator
  return .expr expression (← spanFrom start)

-- A statement, or none for a tag or a semicolon that stands alone.
def statement (parts : Parts) : Parser (Option Stmt) := do
  let start ← location?
  match ← peek? with
  | some .openTag | some .closeTag | some (.symbol .semicolon) =>
    advance
    return none
  | some (.inlineHtml _) =>
    advance
    return some (.html (← last))
  | some (.keyword .Echo) =>
    advance
    return some (← echo parts start)
  | some (.keyword .Return) =>
    advance
    return some (← returned parts start)
  | some (.keyword .If) =>
    advance
    return some (← conditional parts start)
  | some (.keyword .While) =>
    advance
    return some (← whileLoop parts start)
  | some (.symbol .braceLeft) =>
    advance
    return some (.block (← block parts (← last)))
  | some (.keyword .Const) =>
    advance
    return some (← constantDeclaration parts start)
  | some (.keyword .Function) =>
    let doc ← takeDoc
    advance
    return some (← functionDeclaration parts doc start)
  | some (.keyword .Class) | some (.keyword .Abstract) | some (.keyword .Final) =>
    let doc ← takeDoc
    return some (← classDeclaration parts doc start)
  | _ => return some (← expressionStatement parts start)

-- A statement when the given number of levels is left.
def statementAt : Nat → Parser (Option Stmt)
  | 0 => tooDeep
  | depth + 1 => statement ⟨(nestedAt depth).expression, statementAt depth⟩

end PhpLint.Syntax
