import PhpLint.Syntax.Parser

namespace PhpLint.Syntax

open PhpLint.Syntax.Parser

-- How deep statements, operands of unary operators, and whole expressions may nest.
def maxDepth : Nat := 32

-- How tall an expression may grow by operators and by accesses to members.
def maxHeight : Nat := 128

def checkHeight (height : Nat) : Parser Unit :=
  if maxHeight < height then tooDeep else pure ()

-- The parsers for what is nested one level deeper: a whole expression, the operand of
-- a unary operator, and the right side of an assignment.
structure Nested where
  expression : Parser Expr
  operand : Parser Expr
  assigned : Parser Expr

def arguments (nested : Nested) : Parser (List Expr) := do
  advance
  let arguments ← separated .parenRight nested.expression
  expectSymbol .parenRight .commaOrRightParenthesis
  return arguments

def arrayItem (nested : Nested) : Parser ArrayItem := do
  let first ← nested.expression
  if ← skip (.symbol .doubleArrow) then return .keyed first (← nested.expression)
  return .plain first

def arrayItems (nested : Nested) (closing : Symbol) : Parser (List ArrayItem) := do
  let items ← separated closing (arrayItem nested)
  expectSymbol closing .commaOrEndOfArray
  return items

-- After a name: a call, a member of the class with that name, or nothing.
def restOfName (nested : Nested) (name : Identifier) : Parser Expr := do
  if ← isNext (.symbol .parenLeft) then
    let arguments ← arguments nested
    return .call name arguments (name.location.cover (← last))
  if ← skip (.symbol .doubleColon) then
    let member ← identifier .staticMember
    if ← isNext (.symbol .parenLeft) then
      let arguments ← arguments nested
      return .staticCall name member arguments (name.location.cover (← last))
    return .constant (name.name ++ "::" ++ member.name) (name.location.cover member.location)
  return .constant name.name name.location

def ownerName : Parser Identifier := do
  if ← skip (.keyword .Static) then return ⟨"static", ← last⟩
  identifier .className

def newObject (nested : Nested) (start : Location) : Parser Expr := do
  let owner ← ownerName
  let arguments ← if ← isNext (.symbol .parenLeft) then arguments nested else pure []
  return .new owner arguments (start.cover (← last))

-- The tokens in front of which an operand can only be missing.
def endsOperand : Token → Bool
  | .symbol .semicolon | .symbol .parenRight | .symbol .bracketRight | .symbol .comma
  | .closeTag => true
  | _ => false

-- The place of the token in front if an operand is missing there.
def missingOperand? : Parser (Option Location) := do
  match (← get).items with
  | [] => return none
  | item :: _ => return if item.token?.any endsOperand then some item.location else none

def operandOf (nested : Nested) : Token × Location → Parser Expr
  | (.int n, l) => return .literal (.int n) l
  | (.float x, l) => return .literal (.float x) l
  | (.bool b, l) => return .literal (.bool b) l
  | (.null, l) => return .literal .null l
  | (.string text false, l) => return .literal (.string text) l
  | (.string _ true, l) => return .interpolated l
  | (.var name, l) => return .var name l
  | (.symbol .parenLeft, _) => do
    let inner ← nested.expression
    expectSymbol .parenRight .rightParenthesis
    return inner
  | (.symbol .bracketLeft, l) => do
    let items ← arrayItems nested .bracketRight
    return .array items .short (l.cover (← last))
  | (.keyword .New, l) => newObject nested l
  | (.keyword .Static, l) => restOfName nested ⟨"static", l⟩
  | (.identifier name, l) => do
    if name.toLower == "array" then
      if ← skip (.symbol .parenLeft) then
        let items ← arrayItems nested .parenRight
        return .array items .long (l.cover (← last))
    restOfName nested ⟨name, l⟩
  | (_, l) => throw (.unexpectedToken .expression l)

-- A missing operand is recorded, and the statement goes on with a placeholder for it.
def primary (nested : Nested) : Parser Expr := do
  match ← missingOperand? with
  | some location =>
    report (.unexpectedToken .expression location)
    return .invalid location
  | none => operandOf nested (← take .expression)

def member (nested : Nested) (object : Expr) : Parser Expr := do
  let name ← identifier .memberName
  if ← isNext (.symbol .parenLeft) then
    let arguments ← arguments nested
    return .methodCall object name arguments (object.location.cover (← last))
  return .property object name (object.location.cover name.location)

def subscript (nested : Nested) (container : Expr) : Parser Expr := do
  if ← skip (.symbol .bracketRight) then
    return .slot container (container.location.cover (← last))
  let index ← nested.expression
  expectSymbol .bracketRight .rightBracket
  return .element container index (container.location.cover (← last))

-- One access to a member or an element of the expression so far.
def access? (nested : Nested) (object : Expr) : Parser (Option Expr) := do
  if ← skip (.symbol .arrow) then return some (← member nested object)
  if ← skip (.symbol .bracketLeft) then return some (← subscript nested object)
  return none

-- One round of the accesses to members and elements.
def anotherAccess (nested : Nested) : Expr × Nat → Parser (Expr × Nat ⊕ Expr)
  | (object, height) => do
    match ← access? nested object with
    | none => return .inr object
    | some result =>
      checkHeight (height + 1)
      return .inl (result, height + 1)

-- Accesses in a row. Each counts as one level, whatever its arguments are.
def accesses (nested : Nested) : Parser Expr := do
  let first ← primary nested
  iterate (anotherAccess nested) (first, first.height)

-- Exponentiation binds tighter than a unary operator on its left.
def power (nested : Nested) : Parser Expr := do
  let base ← accesses nested
  if ← skip (.symbol .power) then
    let opLocation ← last
    let exponent ← nested.operand
    return .binary .power base exponent (base.location.cover exponent.location) opLocation
  return base

def unaryOp? : Token → Option UnaryOp
  | .symbol .exclamation => some .booleanNot
  | .symbol .minus => some .minus
  | .symbol .plus => some .plus
  | .symbol .tilde => some .bitwiseNot
  | _ => none

def unary (nested : Nested) : Parser Expr := do
  let token? ← peek?
  if let some (.cast type) := token? then
    advance
    let start ← last
    let operand ← nested.operand
    return .cast type operand (start.cover operand.location)
  if let some op := token?.bind unaryOp? then
    advance
    let opLocation ← last
    let operand ← nested.operand
    return .unary op operand (opLocation.cover operand.location) opLocation
  power nested

-- The operators that bind equally tight: the assignments, or binary operators.
inductive Level where
  | assignments
  | operators (table : List (Token × BinaryOp))

def assignmentTable : List (Token × Option BinaryOp) :=
  [(.symbol .assign, none), (.symbol .plusAssign, some .add), (.symbol .minusAssign, some .subtract),
    (.symbol .timesAssign, some .multiply), (.symbol .divideAssign, some .divide),
    (.symbol .moduloAssign, some .modulo), (.symbol .dotAssign, some .concat)]

-- From the assignments on.
def tightLevels : List Level :=
  [.assignments,
    .operators [(.symbol .doublePipe, .booleanOr)],
    .operators [(.symbol .doubleAmpersand, .booleanAnd)],
    .operators [(.symbol .pipe, .bitwiseOr)],
    .operators [(.symbol .caret, .bitwiseXor)],
    .operators [(.symbol .ampersand, .bitwiseAnd)],
    .operators [(.symbol .equals, .equal), (.symbol .notEquals, .notEqual),
      (.symbol .identical, .identical), (.symbol .notIdentical, .notIdentical),
      (.symbol .spaceship, .spaceship)],
    .operators [(.symbol .less, .smaller), (.symbol .lessEquals, .smallerOrEqual),
      (.symbol .greater, .greater), (.symbol .greaterEquals, .greaterOrEqual)],
    .operators [(.symbol .shiftLeft, .shiftLeft), (.symbol .shiftRight, .shiftRight)],
    .operators [(.symbol .plus, .add), (.symbol .minus, .subtract), (.symbol .dot, .concat)],
    .operators [(.symbol .times, .multiply), (.symbol .divide, .divide), (.symbol .modulo, .modulo)]]

-- The loosest level first.
def levels : List Level :=
  .operators [(.keyword .Or, .logicalOr)] :: .operators [(.keyword .Xor, .logicalXor)] ::
    .operators [(.keyword .And, .logicalAnd)] :: tightLevels

-- One round of the operators of a level.
def anotherOperation (table : List (Token × BinaryOp)) (operand : Parser Expr) (left : Expr) :
    Parser (Expr ⊕ Expr) := do
  match (← peek?).bind (table.lookup ·) with
  | none => return .inr left
  | some op =>
    advance
    let opLocation ← last
    let right ← operand
    let result := .binary op left right (left.location.cover right.location) opLocation
    checkHeight result.height
    return .inl result

-- Binary operators of one level associate to the left.
def operation (table : List (Token × BinaryOp)) (operand : Parser Expr) : Parser Expr := do
  iterate (anotherOperation table operand) (← operand)

-- Assignments associate to the right, and any operand is taken as their target.
def assignment (nested : Nested) (operand : Parser Expr) : Parser Expr := do
  let target ← operand
  match (← peek?).bind (assignmentTable.lookup ·) with
  | none => return target
  | some op =>
    advance
    let _ ← skip (.symbol .ampersand)
    let value ← nested.assigned
    let result := Expr.assign op target value (target.location.cover value.location)
    checkHeight result.height
    return result

def climb (nested : Nested) : List Level → Parser Expr
  | [] => unary nested
  | .assignments :: tighter => assignment nested (climb nested tighter)
  | .operators table :: tighter => operation table (climb nested tighter)

-- The parsers for what is nested when the given number of levels is left.
def nestedAt : Nat → Nested
  | 0 => ⟨tooDeep, tooDeep, tooDeep⟩
  | depth + 1 =>
    let nested := nestedAt depth
    ⟨climb nested levels, unary nested, climb nested tightLevels⟩

end PhpLint.Syntax
