import PhpLint.Number.Digits

namespace PhpLint.Toml

inductive Token where
  | newline
  | blank (text : String)
  | equals
  | period
  | comma
  | colon
  | plus
  | leftBrace
  | rightBrace
  | leftBracket
  | rightBracket
  | word (text : String)
  | quoted (text : String) (multiline : Bool)
  deriving DecidableEq, Repr

namespace Token

-- A line may end in a carriage return and a line feed.
def unifyNewlines : List Char → List Char
  | '\r' :: '\n' :: cs => '\n' :: unifyNewlines cs
  | c :: cs => c :: unifyNewlines cs
  | [] => []

def isBlank (c : Char) : Bool :=
  c == ' ' || c == '\t'

def isWordChar (c : Char) : Bool :=
  c.isAlphanum || c == '-' || c == '_'

def isCommentChar (c : Char) : Bool :=
  c == '\t' || ' ' ≤ c

def isTextChar (multiline : Bool) (c : Char) : Bool :=
  (isCommentChar c && c != '\x7f') || (multiline && c == '\n')

-- The character with the given number, written with that many hexadecimal digits.
def scanCode (digits : Nat) (cs : List Char) : Option (List Char × List Char) := do
  let code := cs.take digits
  if code.length < digits then none
  let number ← Number.ofDigits? 16 code
  if number.isValidChar then some ([Char.ofNat number], cs.drop digits) else none

-- What follows a backslash. In front of the end of a line it hides all blanks up to
-- the next character that is none.
def scanEscape (multiline : Bool) : List Char → Option (List Char × List Char)
  | '"' :: cs => some (['"'], cs)
  | '\\' :: cs => some (['\\'], cs)
  | 'b' :: cs => some (['\x08'], cs)
  | 'f' :: cs => some (['\x0c'], cs)
  | 'n' :: cs => some (['\n'], cs)
  | 'r' :: cs => some (['\r'], cs)
  | 't' :: cs => some (['\t'], cs)
  | 'u' :: cs => scanCode 4 cs
  | 'U' :: cs => scanCode 8 cs
  | c :: cs =>
    if multiline && (isBlank c || c == '\n') then
      match (c :: cs).dropWhile isBlank with
      | [] => some ([], [])
      | '\n' :: cs => some ([], cs.dropWhile fun c => isBlank c || c == '\n')
      | _ => none
    else none
  | [] => none

-- One character of a text as it is written. In single quotes nothing is escaped.
def scanTextChar (quote : Char) (multiline : Bool) : List Char → Option (List Char × List Char)
  | [] => none
  | c :: cs =>
    if c == '\\' && quote == '"' then scanEscape multiline cs
    else if isTextChar multiline c then some ([c], cs)
    else none

-- The end of a text. Up to two quotes right before the three that close a text of
-- several lines belong to it.
def scanClose (quote : Char) : Bool → List Char → Option (List Char × List Char)
  | false, cs => if cs.head? == some quote then some ([], cs.drop 1) else none
  | true, cs =>
    let quotes := cs.takeWhile (· == quote)
    if quotes.length < 3 then none
    else some ((quotes.drop 3).take 2, cs.drop (min quotes.length 5))

-- The characters of a text up to its end, one in a round.
def scanText (quote : Char) (multiline : Bool) : Nat → List Char → Option (List Char × List Char)
  | 0, _ => none
  | rounds + 1, cs =>
    match scanClose quote multiline cs with
    | some result => some result
    | none => do
      let (c, rest) ← scanTextChar quote multiline cs
      let (text, rest) ← scanText quote multiline rounds rest
      some (c ++ text, rest)

-- A text after its first quote. A line feed right after three quotes is dropped.
def scanQuoted (quote : Char) (cs : List Char) : Option (Token × List Char) := do
  let multiline := cs.take 2 == [quote, quote]
  let cs := if multiline then cs.drop 2 else cs
  let cs := if multiline && cs.head? == some '\n' then cs.drop 1 else cs
  let (text, rest) ← scanText quote multiline (cs.length + 1) cs
  some (quoted (String.ofList text) multiline, rest)

def scanPunctuation : Char → Option Token
  | '\n' => some newline
  | '=' => some equals
  | '.' => some period
  | ',' => some comma
  | ':' => some colon
  | '+' => some plus
  | '\x7b' => some leftBrace
  | '\x7d' => some rightBrace
  | '[' => some leftBracket
  | ']' => some rightBracket
  | _ => none

-- The first token of a text that is not empty, and what follows it. A comment is none.
def scan (c : Char) (cs : List Char) : Option (List Token × List Char) :=
  match scanPunctuation c with
  | some token => some ([token], cs)
  | none =>
    if c == '#' then some ([], cs.dropWhile isCommentChar)
    else if c == '"' || c == '\'' then (scanQuoted c cs).map fun (token, rest) => ([token], rest)
    else if isBlank c then
      some ([blank (String.ofList (c :: cs.takeWhile isBlank))], cs.dropWhile isBlank)
    else if isWordChar c then
      some ([word (String.ofList (c :: cs.takeWhile isWordChar))], cs.dropWhile isWordChar)
    else none

def scanAll : Nat → List Char → Option (List Token)
  | _, [] => some []
  | 0, _ => none
  | rounds + 1, c :: cs => do
    let (tokens, rest) ← scan c cs
    return tokens ++ (← scanAll rounds rest)

-- The tokens of a document, which may start with a mark of the byte order.
def ofText (text : String) : Option (List Token) :=
  let cs := unifyNewlines text.toList
  let cs := if cs.head? == some '\ufeff' then cs.drop 1 else cs
  scanAll cs.length cs

end Token

end PhpLint.Toml
