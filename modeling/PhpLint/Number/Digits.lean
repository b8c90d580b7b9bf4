namespace PhpLint.Number

-- The value of a character as a digit, in bases up to sixteen.
def digitValue? (base : Nat) (c : Char) : Option Nat :=
  let value :=
    if c.isDigit then some (c.toNat - 48)
    else if 'a' ≤ c && c ≤ 'f' then some (c.toNat - 87)
    else if 'A' ≤ c && c ≤ 'F' then some (c.toNat - 55)
    else none
  value.filter (· < base)

def isHexDigit (c : Char) : Bool :=
  (digitValue? 16 c).isSome

def isOctalDigit (c : Char) : Bool :=
  (digitValue? 8 c).isSome

-- The number that digits denote, the most significant one first.
def ofDigits? (base : Nat) (cs : List Char) : Option Nat :=
  cs.foldlM (fun n c => (digitValue? base c).map (base * n + ·)) 0

-- The same for digits that are known to be decimal: others count as zero.
def ofDecimalDigits (cs : List Char) : Nat :=
  cs.foldl (fun n c => 10 * n + (digitValue? 10 c).getD 0) 0

end PhpLint.Number
