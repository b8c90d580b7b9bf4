import PhpLint.Source.Segment
import PhpLint.Syntax.Statement

namespace PhpLint

namespace Syntax

-- After a statement that failed, parsing goes on in front of these.
def startsDeclaration : Token → Bool
  | .keyword .Function | .keyword .Class | .keyword .Abstract | .keyword .Final | .keyword .Const
  | .openTag | .inlineHtml _ => true
  | _ => false

-- Or after these, or after an error of the source text.
def endsStatement : Token → Bool
  | .symbol .semicolon | .symbol .braceRight | .closeTag => true
  | _ => false

def skipStatement : List Item → Location → List Item × Location
  | [], last => ([], last)
  | item :: rest, last =>
    match item.token? with
    | none => (rest, item.location)
    | some token =>
      if startsDeclaration token then (item :: rest, last)
      else if endsStatement token then (rest, item.location)
      else skipStatement rest item.location

def Stream.advance (s : Stream) : Stream :=
  match s.items with
  | [] => s
  | item :: rest => { s with items := rest, last := item.location }

def Stream.recover (s : Stream) : Stream :=
  let (items, last) := skipStatement s.items s.last
  { s with items, last }

-- The statements from the first item on. One that fails takes at least an item, and an
-- invalid statement stands for what it has taken.
def program : Nat → Stream → List Stmt × List SyntaxError
  | 0, s => ([], s.errors.reverse)
  | rounds + 1, s =>
    match s.items with
    | [] => ([], s.errors.reverse)
    | first :: _ =>
      match statementAt maxDepth s with
      | .ok none t => program rounds t
      | .ok (some statement) t =>
        let (statements, errors) := program rounds t
        (statement :: statements, errors)
      | .error error t =>
        let t := if t.items.length = s.items.length then t.advance else t
        let t := { t with errors := error :: t.errors }
        let (statements, errors) := program rounds t.recover
        (.invalid (first.location.cover t.last) :: statements, errors)

end Syntax

-- The statements of a file and the errors in it, both in the order of the source.
-- Every round takes an item.
def parse (lexemes : List Lexeme) : List Stmt × List SyntaxError :=
  let s := Syntax.Stream.ofLexemes lexemes
  Syntax.program s.items.length s

def parseSource (source file : String) : List Stmt × List SyntaxError :=
  parse (lex source file)

end PhpLint
