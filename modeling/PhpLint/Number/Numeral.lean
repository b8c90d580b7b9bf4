import PhpLint.Number.Decimal
import PhpLint.Number.Digits

namespace PhpLint

-- A number is a word of 64 bits or a double, and keeps which one it is.
inductive Number where
  | int (n : Int64)
  | float (x : Float)
  deriving DecidableEq, Repr

namespace Number

def toFloat : Number → Float
  | int n => floatOfWord n
  | float x => x

def toWord : Number → Int64
  | int n => n
  | float x => wordOfFloat x

def isZero : Number → Bool
  | int n => n == 0
  | float x => x == 0

-- Words compare exactly, anything else as doubles, where the value that is not a
-- number has no place in the order.
def compare? : Number → Number → Option Ordering
  | int a, int b => some (Ord.compare a.toInt b.toInt)
  | a, b =>
    let x := a.toFloat
    let y := b.toFloat
    if x < y then some .lt else if x == y then some .eq else if y < x then some .gt else none

-- The written form of a number: a sign, digits, the digits after a point, and a
-- power of ten, the last two if they are written.
structure Numeral where
  negative : Bool
  whole : List Char
  fraction : Option (List Char)
  exponent : Option (Bool × List Char)
  deriving DecidableEq, Repr

namespace Numeral

def scale (n : Numeral) : Int :=
  let power : Int :=
    match n.exponent with
    | some (true, digits) => -(ofDecimalDigits digits : Int)
    | some (false, digits) => ofDecimalDigits digits
    | none => 0
  power - (n.fraction.getD []).length

def toFloat (n : Numeral) : Float :=
  let magnitude := Decimal.toFloat ⟨ofDecimalDigits (n.whole ++ n.fraction.getD []), n.scale⟩
  if n.negative then -magnitude else magnitude

def toInt (n : Numeral) : Int :=
  let magnitude : Int := ofDecimalDigits n.whole
  if n.negative then -magnitude else magnitude

-- Without a fraction and a power of ten the number is an integer, if it fits.
def toNumber (n : Numeral) : Number :=
  match n.fraction, n.exponent, word? n.toInt with
  | none, none, some word => .int word
  | _, _, _ => .float n.toFloat

-- The characters that may stand before a numeral in a string.
def isSpace (c : Char) : Bool :=
  c == ' ' || c == '\t' || c == '\n' || c == '\r' || c == '\x0b' || c == '\x0c'

def scanSign : List Char → Bool × List Char
  | '-' :: cs => (true, cs)
  | '+' :: cs => (false, cs)
  | cs => (false, cs)

-- A point belongs to the numeral only next to a digit.
def scanFraction (hasWhole : Bool) : List Char → Option (List Char) × List Char
  | '.' :: cs =>
    let digits := cs.takeWhile Char.isDigit
    if hasWhole || !digits.isEmpty then (some digits, cs.dropWhile Char.isDigit)
    else (none, '.' :: cs)
  | cs => (none, cs)

-- The letter belongs to the numeral only in front of a digit.
def scanExponent : List Char → Option (Bool × List Char) × List Char
  | [] => (none, [])
  | c :: cs =>
    let (negative, rest) := scanSign cs
    let digits := rest.takeWhile Char.isDigit
    if (c == 'e' || c == 'E') && !digits.isEmpty then
      (some (negative, digits), rest.dropWhile Char.isDigit)
    else (none, c :: cs)

-- The longest numeral at the start of a text, after blanks, and what follows it.
def scan (cs : List Char) : Option (Numeral × List Char) :=
  let (negative, afterSign) := scanSign (cs.dropWhile isSpace)
  let whole := afterSign.takeWhile Char.isDigit
  let (fraction, afterFraction) :=
    scanFraction (!whole.isEmpty) (afterSign.dropWhile Char.isDigit)
  if whole.isEmpty && fraction.isNone then none
  else
    let (exponent, rest) := scanExponent afterFraction
    some (⟨negative, whole, fraction, exponent⟩, rest)

end Numeral

-- The number at the start of a text.
def ofPrefix? (text : String) : Option Number :=
  (Numeral.scan text.toList).map fun (numeral, _) => numeral.toNumber

-- The number that a whole text denotes.
def ofText? (text : String) : Option Number :=
  match Numeral.scan text.toList with
  | some (numeral, []) => some numeral.toNumber
  | _ => none

end Number

end PhpLint
