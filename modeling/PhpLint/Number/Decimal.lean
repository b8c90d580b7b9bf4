import PhpLint.Number.Binary64

namespace PhpLint.Number

-- The number of decimal digits of a positive number, 1 for zero.
def digitCount (n : Nat) : Nat :=
  (Nat.toDigits 10 n).length

-- The quotient rounded to the nearest integer, halves to the even one.
def roundDiv (num den : Nat) : Nat :=
  let quotient := num / den
  let twice := 2 * (num % den)
  if twice < den then quotient
  else if den < twice then quotient + 1
  else quotient + quotient % 2

-- The exponent of the leading decimal digit of num / den, for positive num and den.
def leadingExponent (num den : Nat) : Int :=
  if den ≤ num then (digitCount (num / den) : Int) - 1
  else -(digitCount ((den - 1) / num) : Int)

-- A positive decimal number: digits times ten to the power of scale.
structure Decimal where
  digits : Nat
  scale : Int
  deriving DecidableEq, Repr

-- The decimal with the given number of significant digits that is nearest to
-- num / den. Rounding up to a power of ten moves the leading digit.
def Decimal.nearest (precision num den : Nat) : Decimal :=
  let lead := leadingExponent num den
  let shift := (precision : Int) - 1 - lead
  let digits :=
    if 0 ≤ shift then roundDiv (num * Nat.pow 10 shift.toNat) den
    else roundDiv num (den * Nat.pow 10 (-shift).toNat)
  if digits = Nat.pow 10 precision then ⟨Nat.pow 10 (precision - 1), 1 - shift⟩ else ⟨digits, -shift⟩

def Dyadic.toDecimal (precision : Nat) (d : Dyadic) : Decimal :=
  if 0 ≤ d.exponent then Decimal.nearest precision (d.mantissa <<< d.exponent.toNat) 1
  else Decimal.nearest precision d.mantissa (1 <<< (-d.exponent).toNat)

-- The double nearest to digits times ten to the power of scale. Every double lies
-- between 1e-324 and 1e309, so a power of ten outside of these bounds need not be
-- computed, however many digits its exponent was written with.
def Decimal.toFloat (d : Decimal) : Float :=
  if d.digits = 0 then 0
  else
    let lead := d.scale + digitCount d.digits
    if 310 < lead then positiveInfinity
    else if lead < -330 then 0
    else if 0 ≤ d.scale then Float.ofScientific d.digits false d.scale.toNat
    else Float.ofScientific d.digits true (-d.scale).toNat

end PhpLint.Number
