import PhpLint.Syntax.Error
import PhpLint.Syntax.Tree
import PhpLint.Value.Entries

namespace PhpLint

def Lexeme.doc? (lexeme : Lexeme) : Option DocComment :=
  match lexeme.content with
  | .ok (.docComment text) => some ⟨text, lexeme.location⟩
  | _ => none

namespace Syntax

-- A lexeme that is no doc comment.
abbrev Item := Lexeme

-- Doc comments by the place where the item behind them starts.
abbrev Docs := Entries Nat DocComment

-- The items that are left, the place of the last one taken, the comments that no
-- declaration has taken, and the errors that did not stop the statement they are in, the
-- latest first.
structure Stream where
  items : List Item
  last : Location
  docs : Docs
  errors : List SyntaxError

def itemsOf (lexemes : List Lexeme) : List Item :=
  lexemes.filter (·.doc?.isNone)

-- Of several doc comments in a row the last one counts.
def fileDocs : Option DocComment → Docs → List Lexeme → Docs
  | _, docs, [] => docs
  | pending, docs, lexeme :: rest =>
    match lexeme.doc? with
    | some doc => fileDocs (some doc) docs rest
    | none => fileDocs none (pending.elim docs fun doc => docs.put lexeme.location.start doc) rest

-- Before the first item the last place is the empty one in front of it.
def Stream.ofLexemes (lexemes : List Lexeme) : Stream where
  items := itemsOf lexemes
  last :=
    match lexemes with
    | [] => ⟨"", 0, 0, 1, 1⟩
    | lexeme :: _ => { lexeme.location with stop := lexeme.location.start }
  docs := fileDocs none [] lexemes
  errors := []

-- A parser that fails keeps what it has taken.
abbrev Parser := EStateM SyntaxError Stream

namespace Parser

variable {α σ : Type}

-- The token in front, unless there is none or it is an error.
def peek? : Parser (Option Token) := do
  return (← get).items.head?.bind Lexeme.token?

def location? : Parser (Option Location) := do
  return (← get).items.head?.map (·.location)

def last : Parser Location := do
  return (← get).last

-- The place from the given start up to the last item taken.
def spanFrom (start : Option Location) : Parser Location := do
  let last ← last
  return start.elim last (·.cover last)

def advance : Parser Unit := do
  let s ← get
  match s.items with
  | [] => pure ()
  | item :: rest => set { s with items := rest, last := item.location }

-- Takes the comment that is filed under the place of the item in front.
def takeDoc : Parser (Option DocComment) := do
  let s ← get
  match s.items with
  | [] => return none
  | item :: _ =>
    set { s with docs := s.docs.remove item.location.start }
    return s.docs.get? item.location.start

def report (error : SyntaxError) : Parser Unit :=
  modify fun s => { s with errors := error :: s.errors }

def tooDeep : Parser α := do
  throw (.tooDeep (← last))

-- Takes an item, which has to be a token.
def take (expected : Expectation) : Parser (Token × Location) := do
  match (← get).items with
  | [] => throw (.endOfFile expected (← last))
  | item :: _ =>
    advance
    match item.content with
    | .ok token => return (token, item.location)
    | .error error => throw (.lexical error expected item.location)

def expect (token : Token) (expected : Expectation) : Parser Unit := do
  let (found, location) ← take expected
  if found ≠ token then throw (.unexpectedToken expected location)

def expectSymbol (symbol : Symbol) (expected : Expectation) : Parser Unit :=
  expect (.symbol symbol) expected

def identifier (expected : Expectation) : Parser Identifier := do
  match ← take expected with
  | (.identifier name, location) => return ⟨name, location⟩
  | (_, location) => throw (.unexpectedToken expected location)

def isNext (token : Token) : Parser Bool := do
  return (← peek?) == some token

-- Takes the token if it is in front.
def skip (token : Token) : Parser Bool := do
  if ← isNext token then
    advance
    return true
  return false

def skipWhileIn (p : Token → Bool) : List Item → Location → List Item × Location
  | [], last => ([], last)
  | item :: rest, last =>
    if item.token?.any p then skipWhileIn p rest item.location else (item :: rest, last)

-- Takes the tokens in front for which the test holds.
def skipWhile (p : Token → Bool) : Parser Unit :=
  modify fun s =>
    let (items, last) := skipWhileIn p s.items s.last
    { s with items, last }

def rounds (step : σ → Parser (σ ⊕ α)) : Nat → σ → Parser α
  | 0, _ => do throw (.endOfFile .expression (← last))
  | n + 1, state => do
    match ← step state with
    | .inl state => rounds step n state
    | .inr result => return result

-- Repeats a step until it gives a result. A step that asks for another round takes an
-- item, so no more rounds are needed than there are items, and one.
def iterate (step : σ → Parser (σ ⊕ α)) (start : σ) : Parser α := do
  rounds step ((← get).items.length + 1) start

-- One round of the things between commas.
def anotherThing (closing : Symbol) (thing : Parser α) (things : List α) :
    Parser (List α ⊕ List α) := do
  if ← isNext (.symbol closing) then return .inr things.reverse
  let things := (← thing) :: things
  if ← skip (.symbol .comma) then return .inl things
  return .inr things.reverse

-- Things between commas. A comma may follow the last one.
def separated (closing : Symbol) (thing : Parser α) : Parser (List α) :=
  iterate (anotherThing closing thing) []

end Parser

end Syntax

end PhpLint
