import PhpLint.Source.StringLiteral

namespace PhpLint.Source

-- A piece of the source and what it is: a token, an error, or nothing for blanks and
-- comments. The source is cut into segments without loss.
structure Segment where
  text : List Char
  content : Option (Except LexError Token)

def isBlankInCode (c : Char) : Bool :=
  c == ' ' || c == '\t' || c == '\r' || c == '\n'

-- The rest of a comment that ends with its line or with the code: whether the code
-- ends, and the number of characters.
def readLineComment : List Char → Bool × Nat
  | [] => (false, 0)
  | '\n' :: _ => (false, 0)
  | '?' :: '>' :: _ => (true, 2)
  | _ :: cs =>
    let (closed, n) := readLineComment cs
    (closed, n + 1)

def commentEnd? : List Char → Option Nat
  | [] => none
  | '*' :: '/' :: _ => some 2
  | _ :: cs => (commentEnd? cs).map (· + 1)

-- What follows the opening of a block comment. A second asterisk makes it a doc
-- comment unless the comment ends there.
def readBlockComment (cs : List Char) : Option (Except LexError Token) × Nat :=
  match commentEnd? cs with
  | none => (some (.error .unterminatedComment), cs.length)
  | some n =>
    if cs.head? == some '*' && (cs.drop 1).head? != some '/' then
      (some (.ok (.docComment (String.ofList ('/' :: '*' :: cs.take n)))), n)
    else (none, n)

def isPadding (c : Char) : Bool :=
  c == ' ' || c == '\t'

-- A type in parentheses, after the left one.
def readCast? (cs : List Char) : Option (CastType × Nat) :=
  let name := (cs.dropWhile isPadding).takeWhile Char.isAlpha
  let rest := ((cs.dropWhile isPadding).dropWhile Char.isAlpha).dropWhile isPadding
  if rest.head? == some ')' then
    (CastType.ofName? (String.ofList name)).map (·, cs.length - rest.length + 1)
  else none

def readSymbol (cs : List Char) : Read Token :=
  match Symbol.scan? cs with
  | some (s, n) => (.ok (.symbol s), n - 1)
  | none => (.error .unexpectedCharacter, 0)

def readParenthesis (cs : List Char) : Read Token :=
  match readCast? cs with
  | some (type, n) => (.ok (.cast type), n)
  | none => (.ok (.symbol .parenLeft), 0)

def readVariable (cs : List Char) : Read Token :=
  let name := cs.takeWhile isWordPart
  if name.isEmpty then (.error .unexpectedCharacter, 0)
  else (.ok (.var (String.ofList name)), name.length)

def readWord (c : Char) (cs : List Char) : Read Token :=
  let rest := cs.takeWhile isWordPart
  (.ok (Token.ofWord (String.ofList (c :: rest))), rest.length)

def readString (literal : Read Quoted) : Read Token :=
  (literal.1.map Quoted.token, literal.2)

def startsNumber (c : Char) (cs : List Char) : Bool :=
  c.isDigit || (c == '.' && cs.head?.any Char.isDigit)

-- A name may begin with a separator of namespaces.
def startsWord (c : Char) (cs : List Char) : Bool :=
  isWordStart c || (c == '\\' && cs.head?.any isWordStart)

-- A token that is no comment, and how many characters after the first belong to it.
def readToken (c : Char) (cs : List Char) : Read Token :=
  if c == '(' then readParenthesis cs
  else if c == '$' then readVariable cs
  else if c == '\'' then readString (readSingleQuoted cs)
  else if c == '"' then readString (readDoubleQuoted cs)
  else if startsNumber c cs then readNumber c cs
  else if startsWord c cs then readWord c cs
  else readSymbol (c :: cs)

private def comment : Bool × Nat → Option (Except LexError Token) × Nat
  | (true, n) => (some (.ok .closeTag), n)
  | (false, n) => (none, n)

-- The segment of code that begins with the character, and how many characters after
-- it belong to it.
def readCode (c : Char) (cs : List Char) : Option (Except LexError Token) × Nat :=
  match c, cs with
  | '#', _ => comment (readLineComment cs)
  | '/', '/' :: rest =>
    let (content, n) := comment (readLineComment rest)
    (content, n + 1)
  | '/', '*' :: rest =>
    let (content, n) := readBlockComment rest
    (content, n + 1)
  | '?', '>' :: _ => (some (.ok .closeTag), 1)
  | _, _ =>
    if isBlankInCode c then (none, 0)
    else
      let (content, n) := readToken c cs
      (some content, n)

def openTag : List Char :=
  ['<', '?', 'p', 'h', 'p']

-- The number of characters in front of the next opening tag.
def htmlLength : List Char → Nat
  | [] => 0
  | c :: cs => if openTag.isPrefixOf (c :: cs) then 0 else htmlLength cs + 1

def endsCode : Option (Except LexError Token) → Bool
  | some (.ok .closeTag) => true
  | _ => false

-- Text outside of the tags is passed on as it is.
def segments (inCode : Bool) : List Char → List Segment
  | [] => []
  | c :: cs =>
    if inCode then
      let (content, n) := readCode c cs
      ⟨c :: cs.take n, content⟩ :: segments (!endsCode content) (cs.drop n)
    else if openTag.isPrefixOf (c :: cs) then
      ⟨openTag, some (.ok .openTag)⟩ :: segments true (cs.drop 4)
    else
      let n := htmlLength cs
      let text := c :: cs.take n
      ⟨text, some (.ok (.inlineHtml (String.ofList text)))⟩ :: segments false (cs.drop n)
termination_by cs => cs.length

def byteLength (cs : List Char) : Nat :=
  cs.foldr (fun c length => c.utf8Size + length) 0

-- A line feed belongs to the line that it ends.
def locate (file : String) (offset line : Nat) : List Segment → List Lexeme
  | [] => []
  | segment :: rest =>
    let stop := offset + byteLength segment.text
    let following := locate file stop (line + segment.text.count '\n') rest
    match segment.content with
    | none => following
    | some content =>
      ⟨content, ⟨file, offset, stop, line, line + segment.text.dropLast.count '\n'⟩⟩ :: following

end Source

-- The tokens and errors of a source text, which starts outside of the tags.
def lex (source file : String) : List Lexeme :=
  Source.locate file 0 1 (Source.segments false source.toList)

end PhpLint
