namespace PhpLint.Number

-- The exact value of a finite double: mantissa times two to the exponent,
-- with its sign. Zero keeps its sign.
structure Dyadic where
  negative : Bool
  mantissa : Nat
  exponent : Int
  deriving DecidableEq, Repr

-- The sign bit is above the 11 bits of the exponent, which are above the 52 bits
-- of the fraction. The least exponent has no implicit leading bit, and the
-- greatest one is kept for infinities and the value that is not a number.
def Dyadic.ofFloat? (x : Float) : Option Dyadic :=
  let bits := x.toBits.toNat
  let fraction := bits % (1 <<< 52)
  let exponent : Nat := (bits >>> 52) % (1 <<< 11)
  let negative := bits >>> 63 == 1
  if exponent = 2047 then none
  else if exponent = 0 then some ⟨negative, fraction, -1074⟩
  else some ⟨negative, fraction + (1 <<< 52), (exponent : Int) - 1075⟩

-- Nearest to the value on the side of zero.
def Dyadic.truncate (d : Dyadic) : Int :=
  let magnitude :=
    if 0 ≤ d.exponent then d.mantissa <<< d.exponent.toNat
    else d.mantissa >>> (-d.exponent).toNat
  if d.negative then -(magnitude : Int) else magnitude

-- An integer as a word of 64 bits, if it fits.
def word? (n : Int) : Option Int64 :=
  if Int64.minValue.toInt ≤ n ∧ n ≤ Int64.maxValue.toInt then some (Int64.ofInt n) else none

-- The integer part of a double, modulo two to the 64. Infinities and the value
-- that is not a number have none and give zero.
def wordOfFloat (x : Float) : Int64 :=
  match Dyadic.ofFloat? x with
  | some d => Int64.ofInt d.truncate
  | none => 0

-- The nearest double.
def floatOfWord (n : Int64) : Float :=
  Float.ofInt n.toInt

-- The result so far times the base to a power, by squaring the base.
def powerFrom (result base : Float) (n : Nat) : Float :=
  let result := if n % 2 = 1 then result * base else result
  if n / 2 = 0 then result else powerFrom result (base * base) (n / 2)
termination_by n

def integerPower (base : Float) (n : Int32) : Float :=
  let power := powerFrom 1 base n.toInt.natAbs
  if n < 0 then 1 / power else power

def isNegativeFloat (x : Float) : Bool :=
  x.toBits.toNat >>> 63 == 1

def positiveInfinity : Float :=
  Float.ofBits 0x7ff0000000000000

end PhpLint.Number
