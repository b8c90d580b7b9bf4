import PhpLint.Syntax.Program

namespace PhpLint

namespace BinaryOp

def token : BinaryOp → Token
  | add => .symbol .plus
  | subtract => .symbol .minus
  | multiply => .symbol .times
  | divide => .symbol .divide
  | modulo => .symbol .modulo
  | power => .symbol .power
  | concat => .symbol .dot
  | bitwiseAnd => .symbol .ampersand
  | bitwiseOr => .symbol .pipe
  | bitwiseXor => .symbol .caret
  | shiftLeft => .symbol .shiftLeft
  | shiftRight => .symbol .shiftRight
  | booleanAnd => .symbol .doubleAmpersand
  | booleanOr => .symbol .doublePipe
  | logicalAnd => .keyword .And
  | logicalOr => .keyword .Or
  | logicalXor => .keyword .Xor
  | equal => .symbol .equals
  | notEqual => .symbol .notEquals
  | identical => .symbol .identical
  | notIdentical => .symbol .notIdentical
  | smaller => .symbol .less
  | smallerOrEqual => .symbol .lessEquals
  | greater => .symbol .greater
  | greaterOrEqual => .symbol .greaterEquals
  | spaceship => .symbol .spaceship

-- How tight an operator binds. Assignments are at level 3, unary operators at level 14,
-- and what needs no parentheses anywhere is at level 16.
def level : BinaryOp → Nat
  | logicalOr => 0
  | logicalXor => 1
  | logicalAnd => 2
  | booleanOr => 4
  | booleanAnd => 5
  | bitwiseOr => 6
  | bitwiseXor => 7
  | bitwiseAnd => 8
  | equal | notEqual | identical | notIdentical | spaceship => 9
  | smaller | smallerOrEqual | greater | greaterOrEqual => 10
  | shiftLeft | shiftRight => 11
  | add | subtract | concat => 12
  | multiply | divide | modulo => 13
  | power => 15

-- Operators associate to the left, except for exponentiation, whose exponent may start
-- with a unary operator.
def leftLevel (op : BinaryOp) : Nat :=
  if op = power then 16 else op.level

def rightLevel (op : BinaryOp) : Nat :=
  if op = power then 14 else op.level + 1

end BinaryOp

def UnaryOp.token : UnaryOp → Token
  | minus => .symbol .minus
  | plus => .symbol .plus
  | booleanNot => .symbol .exclamation
  | bitwiseNot => .symbol .tilde

def Literal.token : Literal → Token
  | int n => .int n
  | float x => .float x
  | string s => .string s false
  | bool b => .bool b
  | null => .null

def assignmentToken? : Option BinaryOp → Option Token
  | none => some (.symbol .assign)
  | some .add => some (.symbol .plusAssign)
  | some .subtract => some (.symbol .minusAssign)
  | some .multiply => some (.symbol .timesAssign)
  | some .divide => some (.symbol .divideAssign)
  | some .modulo => some (.symbol .moduloAssign)
  | some .concat => some (.symbol .dotAssign)
  | some _ => none

-- The name of a class or a function. One of them is a keyword.
def nameToken (name : String) : Token :=
  if name = "static" then .keyword .Static else .identifier name

-- A name in front of the first double colon, and the rest.
def splitMember : List Char → Option (List Char × List Char)
  | ':' :: ':' :: rest => some ([], rest)
  | c :: rest => (splitMember rest).map fun (owner, member) => (c :: owner, member)
  | [] => none

theorem splitMember_append {cs owner member : List Char}
    (h : splitMember cs = some (owner, member)) : owner ++ ':' :: ':' :: member = cs := by
  fun_induction splitMember cs generalizing owner with
  | case1 rest =>
      cases h
      rfl
  | case2 c rest _ ih =>
      obtain ⟨⟨front, back⟩, hrest, heq⟩ := Option.map_eq_some_iff.mp h
      cases heq
      simp [ih hrest]
  | case3 => cases h

theorem ofList_append_splitMember {name : String} {owner member : List Char}
    (h : splitMember name.toList = some (owner, member)) :
    String.ofList owner ++ "::" ++ String.ofList member = name := by
  rw [← String.toList_inj]
  simp [← splitMember_append h]

def constantTokens (name : String) : List Token :=
  match splitMember name.toList with
  | some (owner, member) =>
    [nameToken (String.ofList owner), .symbol .doubleColon, .identifier (String.ofList member)]
  | none => [nameToken name]

def parenthesized (tokens : List Token) : List Token :=
  .symbol .parenLeft :: (tokens ++ [.symbol .parenRight])

def enclosed (isBare : Bool) (tokens : List Token) : List Token :=
  if isBare then tokens else parenthesized tokens

def commas (parts : List (List Token)) : List Token :=
  [.symbol .comma].intercalate parts

theorem commas_singleton (tokens : List Token) : commas [tokens] = tokens :=
  List.intercalate_singleton

theorem commas_cons_cons (first second : List Token) (parts : List (List Token)) :
    commas (first :: second :: parts) = first ++ .symbol .comma :: commas (second :: parts) := by
  simp [commas]

namespace Expr

def level : Expr → Nat
  | assign .. => 3
  | binary op .. => op.level
  | unary .. | cast .. => 14
  | _ => 16

theorem level_le (e : Expr) : e.level ≤ 16 := by
  unfold level
  split
  · decide
  · next op _ _ _ _ => cases op <;> decide
  all_goals decide

-- The targets of assignments that stand without parentheses.
def isPlace : Expr → Bool
  | var .. | methodCall .. | property .. | element .. | slot .. => true
  | _ => false

end Expr

-- An expression in tokens, with parentheses only where the levels ask for them.
mutual
def Expr.tokens : Expr → List Token
  | .literal value _ => [value.token]
  | .var name _ => [.var name]
  | .constant name _ => constantTokens name
  | .assign op target value _ =>
    enclosed target.isPlace target.tokens ++
      (assignmentToken? op).getD (.symbol .assign) :: enclosed (3 ≤ value.level) value.tokens
  | .binary op left right _ _ =>
    enclosed (op.leftLevel ≤ left.level) left.tokens ++
      op.token :: enclosed (op.rightLevel ≤ right.level) right.tokens
  | .unary op operand _ _ => op.token :: enclosed (14 ≤ operand.level) operand.tokens
  | .cast type operand _ => .cast type :: enclosed (14 ≤ operand.level) operand.tokens
  | .array items .long _ => .identifier "array" :: parenthesized (commas (itemTokens items))
  | .array items .short _ =>
    .symbol .bracketLeft :: (commas (itemTokens items) ++ [.symbol .bracketRight])
  | .call name arguments _ => nameToken name.name :: parenthesized (commas (listTokens arguments))
  | .methodCall object method arguments _ =>
    enclosed (16 ≤ object.level) object.tokens ++
      .symbol .arrow :: .identifier method.name :: parenthesized (commas (listTokens arguments))
  | .staticCall owner method arguments _ =>
    nameToken owner.name :: .symbol .doubleColon :: .identifier method.name ::
      parenthesized (commas (listTokens arguments))
  | .new owner arguments _ =>
    .keyword .New :: nameToken owner.name :: parenthesized (commas (listTokens arguments))
  | .property object name _ =>
    enclosed (16 ≤ object.level) object.tokens ++ [.symbol .arrow, .identifier name.name]
  | .element container index _ =>
    enclosed (16 ≤ container.level) container.tokens ++
      .symbol .bracketLeft :: (index.tokens ++ [.symbol .bracketRight])
  | .slot container _ =>
    enclosed (16 ≤ container.level) container.tokens ++
      [.symbol .bracketLeft, .symbol .bracketRight]
  | .interpolated _ | .invalid _ => []

def ArrayItem.tokens : ArrayItem → List Token
  | .plain value => value.tokens
  | .keyed key value => key.tokens ++ .symbol .doubleArrow :: value.tokens

def listTokens : List Expr → List (List Token)
  | [] => []
  | e :: es => e.tokens :: listTokens es

def itemTokens : List ArrayItem → List (List Token)
  | [] => []
  | item :: items => item.tokens :: itemTokens items
end

-- The expressions that are determined by their tokens: nothing is missing or interpolated
-- in them, and no function has the name that starts an array.
mutual
def Expr.isPrintable : Expr → Bool
  | .literal .. | .var .. | .constant .. => true
  | .assign op target value _ =>
    (assignmentToken? op).isSome && target.isPrintable && value.isPrintable
  | .binary _ left right _ _ => left.isPrintable && right.isPrintable
  | .unary _ operand _ _ => operand.isPrintable
  | .cast _ operand _ => operand.isPrintable
  | .array items _ _ => arePrintableItems items
  | .call name arguments _ => name.name.toLower != "array" && arePrintable arguments
  | .methodCall object _ arguments _ => object.isPrintable && arePrintable arguments
  | .staticCall _ _ arguments _ => arePrintable arguments
  | .new _ arguments _ => arePrintable arguments
  | .property object _ _ => object.isPrintable
  | .element container index _ => container.isPrintable && index.isPrintable
  | .slot container _ => container.isPrintable
  | .interpolated _ | .invalid _ => false

def ArrayItem.isPrintable : ArrayItem → Bool
  | .plain value => value.isPrintable
  | .keyed key value => key.isPrintable && value.isPrintable

def arePrintable : List Expr → Bool
  | [] => true
  | e :: es => e.isPrintable && arePrintable es

def arePrintableItems : List ArrayItem → Bool
  | [] => true
  | item :: items => item.isPrintable && arePrintableItems items
end

def Identifier.erase (name : Identifier) : Identifier :=
  ⟨name.name, default⟩

-- An expression without its places.
mutual
def Expr.erase : Expr → Expr
  | .literal value _ => .literal value default
  | .var name _ => .var name default
  | .constant name _ => .constant name default
  | .assign op target value _ => .assign op target.erase value.erase default
  | .binary op left right _ _ => .binary op left.erase right.erase default default
  | .unary op operand _ _ => .unary op operand.erase default default
  | .cast type operand _ => .cast type operand.erase default
  | .array items style _ => .array (eraseItems items) style default
  | .call name arguments _ => .call name.erase (eraseAll arguments) default
  | .methodCall object method arguments _ =>
    .methodCall object.erase method.erase (eraseAll arguments) default
  | .staticCall owner method arguments _ =>
    .staticCall owner.erase method.erase (eraseAll arguments) default
  | .new owner arguments _ => .new owner.erase (eraseAll arguments) default
  | .property object name _ => .property object.erase name.erase default
  | .element container index _ => .element container.erase index.erase default
  | .slot container _ => .slot container.erase default
  | .interpolated _ => .interpolated default
  | .invalid _ => .invalid default

def ArrayItem.erase : ArrayItem → ArrayItem
  | .plain value => .plain value.erase
  | .keyed key value => .keyed key.erase value.erase

def eraseAll : List Expr → List Expr
  | [] => []
  | e :: es => e.erase :: eraseAll es

def eraseItems : List ArrayItem → List ArrayItem
  | [] => []
  | item :: items => item.erase :: eraseItems items
end

theorem listTokens_eq_map (es : List Expr) : listTokens es = es.map Expr.tokens := by
  induction es with
  | nil => rfl
  | cons e es ih => rw [listTokens, ih, List.map_cons]

theorem itemTokens_eq_map (items : List ArrayItem) :
    itemTokens items = items.map ArrayItem.tokens := by
  induction items with
  | nil => rfl
  | cons item items ih => rw [itemTokens, ih, List.map_cons]

theorem eraseAll_eq_map (es : List Expr) : eraseAll es = es.map Expr.erase := by
  induction es with
  | nil => rfl
  | cons e es ih => rw [eraseAll, ih, List.map_cons]

theorem eraseItems_eq_map (items : List ArrayItem) :
    eraseItems items = items.map ArrayItem.erase := by
  induction items with
  | nil => rfl
  | cons item items ih => rw [eraseItems, ih, List.map_cons]

end PhpLint
