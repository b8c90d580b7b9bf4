import PhpLint.Number.LeadingBits
import PhpLint.Number.Numeral
import PhpLint.Source.Token

namespace PhpLint.Source

-- What was read and how many characters of the text it took.
abbrev Read (α : Type) := Except LexError α × Nat

def isDigitOrMark (c : Char) : Bool :=
  c.isDigit || c == '_'

def unmarked (cs : List Char) : List Char :=
  cs.filter (· != '_')

-- Digits with marks between them. An integer that does not fit becomes a double.
def integerToken (base : Nat) (digits : List Char) : Except LexError Token :=
  let digits := unmarked digits
  if digits.isEmpty then .error .invalidNumber
  else
    match (Number.ofDigits? base digits).bind (Number.word? ·) with
    | some n => .ok (.int n)
    | none => (Number.wideInteger? base digits).elim (.error .invalidNumber) (.ok ∘ .float)

-- The base that the letter after a leading zero stands for.
def baseOf? : Option Char → Option Nat
  | some 'x' | some 'X' => some 16
  | some 'b' | some 'B' => some 2
  | some 'o' | some 'O' => some 8
  | _ => none

-- The digits after a point that follows an integer part. Two points in a row are
-- none of a number.
def scanFraction : List Char → Option (List Char)
  | '.' :: '.' :: _ => none
  | '.' :: cs => some (cs.takeWhile isDigitOrMark)
  | _ => none

def readDecimal (first : Char) (cs : List Char) : Read Token :=
  let lead := cs.takeWhile isDigitOrMark
  let afterLead := cs.dropWhile isDigitOrMark
  let whole := if first == '.' then [] else first :: lead
  let fraction := if first == '.' then some lead else scanFraction afterLead
  let afterFraction :=
    if first == '.' then afterLead else afterLead.drop (fraction.elim 0 (·.length + 1))
  let (exponent, rest) := Number.Numeral.scanExponent afterFraction
  let token :=
    if fraction.isSome || exponent.isSome then
      .ok (.float (Number.Numeral.toFloat ⟨false, unmarked whole, fraction.map unmarked, exponent⟩))
    else if first == '0' && !lead.isEmpty then integerToken 8 lead
    else integerToken 10 whole
  (token, cs.length - rest.length)

-- A number whose first character, a digit or a point in front of a digit, is given.
def readNumber (first : Char) (cs : List Char) : Read Token :=
  match (if first == '0' then baseOf? cs.head? else none) with
  | some base =>
    let digits := (cs.drop 1).takeWhile fun c => Number.isHexDigit c || c == '_'
    (integerToken base digits, digits.length + 1)
  | none => readDecimal first cs

end PhpLint.Source
