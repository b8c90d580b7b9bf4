import PhpLint.Operator
import PhpLint.Source.Location

namespace PhpLint

inductive Symbol where
  | parenLeft | parenRight | braceLeft | braceRight | bracketLeft | bracketRight
  | comma | semicolon | colon | doubleColon | arrow | doubleArrow | question
  | plus | minus | times | divide | modulo | power | dot
  | ampersand | pipe | caret | tilde | shiftLeft | shiftRight
  | exclamation | doubleAmpersand | doublePipe
  | assign | plusAssign | minusAssign | timesAssign | divideAssign | moduloAssign | dotAssign
  | equals | identical | notEquals | notIdentical
  | less | lessEquals | greater | greaterEquals | spaceship
  deriving DecidableEq, Repr

namespace Symbol

def spelling : Symbol → String
  | parenLeft => "("
  | parenRight => ")"
  | braceLeft => "\x7b"
  | braceRight => "\x7d"
  | bracketLeft => "["
  | bracketRight => "]"
  | comma => ","
  | semicolon => ";"
  | colon => ":"
  | doubleColon => "::"
  | arrow => "->"
  | doubleArrow => "=>"
  | question => "?"
  | plus => "+"
  | minus => "-"
  | times => "*"
  | divide => "/"
  | modulo => "%"
  | power => "**"
  | dot => "."
  | ampersand => "&"
  | pipe => "|"
  | caret => "^"
  | tilde => "~"
  | shiftLeft => "<<"
  | shiftRight => ">>"
  | exclamation => "!"
  | doubleAmpersand => "&&"
  | doublePipe => "||"
  | assign => "="
  | plusAssign => "+="
  | minusAssign => "-="
  | timesAssign => "*="
  | divideAssign => "/="
  | moduloAssign => "%="
  | dotAssign => ".="
  | equals => "=="
  | identical => "==="
  | notEquals => "!="
  | notIdentical => "!=="
  | less => "<"
  | lessEquals => "<="
  | greater => ">"
  | greaterEquals => ">="
  | spaceship => "<=>"

def ofThree : List Symbol :=
  [identical, notIdentical, spaceship]

def ofTwo : List Symbol :=
  [doubleColon, arrow, doubleArrow, power, shiftLeft, shiftRight, doubleAmpersand, doublePipe,
    plusAssign, minusAssign, timesAssign, divideAssign, moduloAssign, dotAssign, equals, notEquals,
    lessEquals, greaterEquals]

def ofOne : List Symbol :=
  [parenLeft, parenRight, braceLeft, braceRight, bracketLeft, bracketRight, comma, semicolon, colon,
    question, plus, minus, times, divide, modulo, dot, ampersand, pipe, caret, tilde, exclamation,
    assign, less, greater]

-- Every spelling of a symbol, longer ones first. Inequality has two of them.
def spellings : List (List Char × Symbol) :=
  (ofThree.map fun s => (s.spelling.toList, s)) ++ (['<', '>'], notEquals) ::
    (ofTwo ++ ofOne).map fun s => (s.spelling.toList, s)

-- The longest symbol that a text starts with, and its length.
def scan? (cs : List Char) : Option (Symbol × Nat) :=
  (spellings.find? fun (spelling, _) => spelling.isPrefixOf cs).map
    fun (spelling, symbol) => (symbol, spelling.length)

end Symbol

inductive Keyword where
  | Function | Class | Abstract | Final | Extends | Public | Protected | Private | Static | Var
  | Return | If | Elseif | Else | While | Echo | New | Const | And | Or | Xor
  deriving DecidableEq, Repr

namespace Keyword

def all : List Keyword :=
  [Function, Class, Abstract, Final, Extends, Public, Protected, Private, Static, Var, Return, If,
    Elseif, Else, While, Echo, New, Const, And, Or, Xor]

def spelling : Keyword → String
  | Function => "function"
  | Class => "class"
  | Abstract => "abstract"
  | Final => "final"
  | Extends => "extends"
  | Public => "public"
  | Protected => "protected"
  | Private => "private"
  | Static => "static"
  | Var => "var"
  | Return => "return"
  | If => "if"
  | Elseif => "elseif"
  | Else => "else"
  | While => "while"
  | Echo => "echo"
  | New => "new"
  | Const => "const"
  | And => "and"
  | Or => "or"
  | Xor => "xor"

end Keyword

inductive Token where
  | openTag
  | closeTag
  | inlineHtml (text : String)
  | docComment (text : String)
  | symbol (s : Symbol)
  | cast (type : CastType)
  | keyword (k : Keyword)
  | var (name : String)
  | identifier (name : String)
  | int (n : Int64)
  | float (x : Float)
  | bool (b : Bool)
  | null
  | string (text : String) (interpolated : Bool)
  deriving DecidableEq, Repr

-- Keywords and the names of constants of the language are recognized in any case.
def Token.ofWord (word : String) : Token :=
  let lower := word.toLower
  match lower with
  | "true" => .bool true
  | "false" => .bool false
  | "null" => .null
  | _ =>
    match Keyword.all.find? (·.spelling == lower) with
    | some k => .keyword k
    | none => .identifier word

-- Why a piece of the source is not a token.
inductive LexError where
  | unexpectedCharacter
  | missingClosingQuote
  | unterminatedComment
  | invalidNumber
  deriving DecidableEq, Repr

namespace LexError

def message : LexError → String
  | unexpectedCharacter => "unexpected character"
  | missingClosingQuote => "missing closing quote"
  | unterminatedComment => "unterminated comment"
  | invalidNumber => "invalid numeric literal"

def code : LexError → Nat
  | unexpectedCharacter => 160
  | missingClosingQuote => 161
  | unterminatedComment => 162
  | invalidNumber => 163

end LexError

structure Lexeme where
  content : Except LexError Token
  location : Location
  deriving Repr

namespace Lexeme

def token? (lexeme : Lexeme) : Option Token :=
  lexeme.content.toOption

end Lexeme

end PhpLint
