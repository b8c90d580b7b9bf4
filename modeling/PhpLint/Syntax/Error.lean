import PhpLint.Source.Token

namespace PhpLint

-- What the grammar asks for at a place.
inductive Expectation where
  | constantName | equalsSign | leftParenthesis | rightParenthesis | rightBrace
  | functionName | functionBody | parameterList | parameterName | commaOrRightParenthesis
  | classKeyword | className | parentClassName | classBody | classMember
  | methodName | methodBody | semicolon | memberName | staticMember | rightBracket
  | expression | commaOrEndOfArray
  deriving DecidableEq, Repr

namespace Expectation

def message : Expectation → String
  | constantName => "expected constant name"
  | equalsSign => "expected equals sign"
  | leftParenthesis => "expected left parenthesis"
  | rightParenthesis => "expected right parenthesis"
  | rightBrace => "expected right brace"
  | functionName => "expected function name"
  | functionBody => "expected function body"
  | parameterList => "expected parameter list"
  | parameterName => "expected parameter name"
  | commaOrRightParenthesis => "expected comma or right parenthesis"
  | classKeyword => "expected class"
  | className => "expected class name"
  | parentClassName => "expected parent class name"
  | classBody => "expected class body"
  | classMember => "expected class member"
  | methodName => "expected method name"
  | methodBody => "expected method body"
  | semicolon => "expected semicolon"
  | memberName => "expected member name"
  | staticMember => "expected static member"
  | rightBracket => "expected right bracket"
  | expression => "expected expression"
  | commaOrEndOfArray => "expected comma or end of array"

end Expectation

inductive SyntaxError where
  | endOfFile (expected : Expectation) (last : Location)
  | lexical (error : LexError) (expected : Expectation) (location : Location)
  | unexpectedToken (expected : Expectation) (location : Location)
  | tooDeep (location : Location)
  deriving DecidableEq, Repr

namespace SyntaxError

def code : SyntaxError → Nat
  | endOfFile .. => 100
  | lexical error .. => error.code
  | unexpectedToken .. => 300
  | tooDeep .. => 391

def location : SyntaxError → Location
  | endOfFile _ l | lexical _ _ l | unexpectedToken _ l | tooDeep l => l

def expected? : SyntaxError → Option Expectation
  | endOfFile e _ | lexical _ e _ | unexpectedToken e _ => some e
  | tooDeep _ => none

def message : SyntaxError → String
  | endOfFile .. => "Unexpected end of file"
  | lexical error .. => error.message.capitalize
  | unexpectedToken .. => "Unexpected token"
  | tooDeep .. => "Maximum parse depth exceeded"

def headline (error : SyntaxError) : String :=
  s!"[E{error.code}] Error: {error.message}"

end SyntaxError

end PhpLint
