import PhpLint.Number.Numeral
import PhpLint.Toml.Reader
import PhpLint.Toml.Value

namespace PhpLint.Toml.Reader

-- Digits with single underscores between them, without the underscores, and the text
-- after them.
def scanDigits (leadingZeros : Bool) (base : Nat) (text : List Char) :
    Option (List Char × List Char) :=
  let isPart (c : Char) : Bool := (Number.digitValue? base c).isSome || c == '_'
  let part := text.takeWhile isPart
  let groups := part.splitOn '_'
  if groups.any List.isEmpty then none
  else if part.head? == some '0' && 1 < part.length && !leadingZeros then none
  else some (part.filter (· != '_'), text.dropWhile isPart)

def scanSigned (leadingZeros : Bool) (text : List Char) :
    Option (Bool × List Char × List Char) :=
  match text with
  | '-' :: rest => (scanDigits leadingZeros 10 rest).map (true, ·)
  | _ => (scanDigits leadingZeros 10 text).map (false, ·)

def integer (base : Nat) (negative : Bool) (digits rest : List Char) : Reader Value := do
  if !rest.isEmpty then failure
  let magnitude ← Number.ofDigits? base digits
  let n ← Number.word? (if negative then -(magnitude : Int) else magnitude)
  return .int n

-- The power of ten after its letter. A plus in it is a token of its own.
def exponent (text : List Char) : Reader (Bool × List Char) := do
  if text.isEmpty then
    let _ ← eat .plus
    match scanDigits true 10 (← word).toList with
    | some (digits, []) => return (false, digits)
    | _ => failure
  else
    match scanSigned true text with
    | some (negative, digits, []) => return (negative, digits)
    | _ => failure

def float (negative : Bool) (whole : List Char) (fraction : Option (List Char))
    (rest : List Char) : Reader Value := do
  let exponent ←
    match rest with
    | [] => pure none
    | letter :: text => if letter == 'e' || letter == 'E' then some <$> exponent text else failure
  let x := Number.Numeral.toFloat ⟨negative, whole, fraction, exponent⟩
  if x.isFinite then return .float x else failure

def number (text : String) : Reader Value := do
  match text.toList with
  | '0' :: 'x' :: digits => based 16 digits
  | '0' :: 'o' :: digits => based 8 digits
  | '0' :: 'b' :: digits => based 2 digits
  | cs =>
    if cs.contains 'e' || cs.contains 'E' then
      let (negative, whole, rest) ← scanSigned false cs
      float negative whole none rest
    else if ← eat .period then
      let (negative, whole, rest) ← scanSigned false cs
      let (fraction, more) ← scanDigits true 10 (← word).toList
      if rest.isEmpty then float negative whole (some fraction) more else failure
    else if text == "inf" || text == "-inf" || text == "nan" || text == "-nan" then
      return .float (special text)
    else
      let (negative, digits, rest) ← scanSigned false cs
      integer 10 negative digits rest
where
  based (base : Nat) (cs : List Char) : Reader Value := do
    let (digits, rest) ← scanDigits true base cs
    integer base false digits rest
  special (text : String) : Float :=
    let infinity := Number.positiveInfinity
    if text == "inf" then infinity else if text == "-inf" then -infinity else infinity - infinity

end PhpLint.Toml.Reader
