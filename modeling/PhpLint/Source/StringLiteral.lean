import PhpLint.Source.NumberLiteral
import PhpLint.Text.Alphabetic
import PhpLint.Text.Numeric

namespace PhpLint.Source

def isWordStart (c : Char) : Bool :=
  c.isAlpha || c == '_' || Text.isWideLetter c

def isWordPart (c : Char) : Bool :=
  c.isAlphanum || c == '_' || c == '\\' || Text.isWideLetter c || Text.isWideNumeric c

-- The text of a string literal, and whether variables are substituted in it.
structure Quoted where
  text : List Char
  interpolated : Bool
  deriving DecidableEq, Repr

private def extend (cs : List Char) (interpolated : Bool) (taken : Nat) :
    Read Quoted → Read Quoted
  | (.ok rest, n) => (.ok ⟨cs ++ rest.text, interpolated || rest.interpolated⟩, taken + n)
  | (.error e, n) => (.error e, taken + n)

-- The rest of a string after its single quote. Only the quote and the backslash can
-- be escaped.
def readSingleQuoted : List Char → Read Quoted
  | [] => (.error .missingClosingQuote, 0)
  | '\'' :: _ => (.ok ⟨[], false⟩, 1)
  | '\\' :: '\'' :: cs => extend ['\''] false 2 (readSingleQuoted cs)
  | '\\' :: '\\' :: cs => extend ['\\'] false 2 (readSingleQuoted cs)
  | c :: cs => extend [c] false 1 (readSingleQuoted cs)

def codeOf (base : Nat) (digits : List Char) : Nat :=
  (Number.ofDigits? base digits).getD 0

-- The escapes that stand for one character.
def simpleEscape? : Char → Option Char
  | 'n' => some '\n'
  | 't' => some '\t'
  | 'r' => some '\r'
  | 'v' => some '\x0b'
  | 'e' => some '\x1b'
  | 'f' => some '\x0c'
  | '\\' => some '\\'
  | '$' => some '$'
  | '"' => some '"'
  | _ => none

-- A code point in braces. A number that is none, and a missing brace, are errors.
def readCodePoint (cs : List Char) : Read (List Char) :=
  let digits := cs.takeWhile Number.isHexDigit
  let closed := (cs.drop digits.length).head? == some '\x7d'
  let code := codeOf 16 digits
  let taken := digits.length + (if closed then 1 else 0)
  if closed && !digits.isEmpty && decide code.isValidChar then (.ok [Char.ofNat code], taken)
  else (.error .unexpectedCharacter, taken)

-- What follows a backslash in double quotes. A backslash that starts no escape
-- stands for itself.
def readEscape : List Char → Read (List Char)
  | [] => (.error .missingClosingQuote, 0)
  | c :: cs =>
    if let some x := simpleEscape? c then (.ok [x], 1)
    else if Number.isOctalDigit c then
      let digits := c :: (cs.take 2).takeWhile Number.isOctalDigit
      (.ok [Char.ofNat (codeOf 8 digits % 256)], digits.length)
    else if c == 'x' && cs.head?.any Number.isHexDigit then
      let digits := (cs.take 2).takeWhile Number.isHexDigit
      (.ok [Char.ofNat (codeOf 16 digits)], digits.length + 1)
    else if c == 'u' && cs.head? == some '\x7b' then
      let (result, taken) := readCodePoint (cs.drop 1)
      (result, taken + 2)
    else (.ok ['\\', c], 1)

-- A variable is substituted after a dollar sign, or in braces that open before one.
def startsInterpolation (c : Char) (cs : List Char) : Bool :=
  (c == '$' && cs.head?.any isWordStart) || (c == '\x7b' && cs.head? == some '$')

-- The rest of a string after its double quote.
def readDoubleQuoted : List Char → Read Quoted
  | [] => (.error .missingClosingQuote, 0)
  | c :: cs =>
    if c == '"' then (.ok ⟨[], false⟩, 1)
    else if c == '\\' then
      match readEscape cs with
      | (.ok x, n) => extend x false (n + 1) (readDoubleQuoted (cs.drop n))
      | (.error e, n) => (.error e, n + 1)
    else extend [c] (startsInterpolation c cs) 1 (readDoubleQuoted cs)
termination_by cs => cs.length

def Quoted.token (q : Quoted) : Token :=
  .string (String.ofList q.text) q.interpolated

end PhpLint.Source
