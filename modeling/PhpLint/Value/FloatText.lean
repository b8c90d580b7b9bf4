import PhpLint.Number.Decimal

namespace PhpLint.Value

-- Doubles are written with at most this many significant digits.
def precision : Nat := 14

-- The digits of a decimal with its trailing zeros removed.
def significantDigits (n : Nat) : List Char :=
  ((Nat.toDigits 10 n).reverse.dropWhile (· == '0')).reverse

-- The digits are positioned around the point, or written with a power of ten when
-- the point is more than three places before them or more than the precision after
-- their start. A power of ten has at least one digit after its point.
def positioned (digits : List Char) (point : Int) : List Char :=
  if point < -3 ∨ (precision : Int) < point then
    let exponent := point - 1
    let fraction := if digits.length ≤ 1 then ['0'] else digits.drop 1
    digits.take 1 ++ '.' :: fraction ++
      'E' :: (if exponent < 0 then '-' else '+') :: Nat.toDigits 10 exponent.natAbs
  else if point ≤ 0 then
    '0' :: '.' :: List.replicate (-point).toNat '0' ++ digits
  else
    let whole := point.toNat
    if digits.length ≤ whole then digits ++ List.replicate (whole - digits.length) '0'
    else digits.take whole ++ '.' :: digits.drop whole

def floatText (x : Float) : String :=
  match Number.Dyadic.ofFloat? x with
  | none => if x.isNaN then "NAN" else if Number.isNegativeFloat x then "-INF" else "INF"
  | some d =>
    let sign := if d.negative then ['-'] else []
    if d.mantissa = 0 then String.ofList (sign ++ ['0'])
    else
      let decimal := d.toDecimal precision
      String.ofList (sign ++ positioned (significantDigits decimal.digits) (decimal.scale + precision))

end PhpLint.Value
