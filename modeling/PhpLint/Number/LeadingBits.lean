import PhpLint.Number.Decimal
import PhpLint.Number.Digits

namespace PhpLint.Number

-- How many bits a digit stands for, in the bases in which it stands for some.
def digitBits? : Nat → Option Nat
  | 2 => some 1
  | 8 => some 3
  | 16 => some 4
  | _ => none

-- The leading bits of an integer, whether one of the bits behind them is set, and how many
-- there are behind them.
structure LeadingBits where
  bits : BitVec 128 := 0
  isInexact : Bool := false
  exponent : Int32 := 0
  deriving DecidableEq, Repr

namespace LeadingBits

-- A digit for which there is no room is dropped.
def push (width : Nat) (leading : LeadingBits) (digit : Nat) : LeadingBits :=
  if width ≤ leading.bits.clz.toNat then
    { leading with bits := leading.bits <<< width ||| BitVec.ofNat 128 digit }
  else
    { leading with
      isInexact := leading.isInexact || digit != 0
      exponent := leading.exponent + Int32.ofNat width }

def ofDigits? (base width : Nat) (cs : List Char) : Option LeadingBits :=
  cs.foldlM (fun leading c => (digitValue? base c).map (leading.push width)) {}

-- The last of the leading bits stands for those that were dropped, so that the conversion
-- rounds as the whole integer would.
def toFloat (leading : LeadingBits) : Float :=
  let bits := leading.bits ||| (BitVec.ofBool leading.isInexact).setWidth 128
  Float.ofNat bits.toNat * integerPower 2 leading.exponent

end LeadingBits

-- The double for digits of an integer that is too large for a word.
def wideInteger? (base : Nat) (digits : List Char) : Option Float :=
  match digitBits? base with
  | some width => (LeadingBits.ofDigits? base width digits).map (·.toFloat)
  | none => (ofDigits? 10 digits).map fun n => Decimal.toFloat ⟨n, 0⟩

end PhpLint.Number
