import PhpLint.Number.Numeral
import PhpLint.Value.Basic
import PhpLint.Value.FloatText

namespace PhpLint.Value

-- Whether a condition on the value holds, if that is known. Every object is true.
def truthy? : Value → Option Bool
  | null => some false
  | bool b => some b
  | int n => some (n != 0)
  | float x => some (x != 0)
  | string s => some !(s == "" || s == "0")
  | array entries => some !entries.isEmpty
  | object _ | any .object => some true
  | unknown | any _ | argument _ | constant _ => none

private def wordOfBool (b : Bool) : Int64 :=
  if b then 1 else 0

-- An explicit conversion takes the number that a string starts with, or zero.
def toInt? : Value → Option Int64
  | null => some 0
  | bool b => some (wordOfBool b)
  | int n => some n
  | float x => some (Number.wordOfFloat x)
  | string s => some ((Number.ofPrefix? s).elim 0 Number.toWord)
  | array entries => some (wordOfBool !entries.isEmpty)
  | _ => none

def toFloat? : Value → Option Float
  | float x => some x
  | string s => some ((Number.ofPrefix? s).elim 0 Number.toFloat)
  | value => value.toInt?.map Number.floatOfWord

def toText? : Value → Option String
  | null => some ""
  | bool b => some (if b then "1" else "")
  | int n => some (toString n.toInt)
  | float x => some (floatText x)
  | string s => some s
  | array _ => some "Array"
  | _ => none

-- The number that arithmetic takes for a value. A string has to be a numeral as a whole.
def toNumber? : Value → Option Number
  | null => some (.int 0)
  | bool b => some (.int (wordOfBool b))
  | int n => some (.int n)
  | float x => some (.float x)
  | string s => Number.ofText? s
  | _ => none

-- The integer that a text is the decimal form of: no plus sign, no leading zero
-- and no negative zero.
def canonicalInt? (cs : List Char) : Option Int64 :=
  let negative := cs.head? == some '-'
  let digits := if negative then cs.drop 1 else cs
  let canonical :=
    match digits with
    | [] => false
    | ['0'] => !negative
    | '0' :: _ => false
    | _ => digits.all Char.isDigit
  let magnitude : Int := Number.ofDecimalDigits digits
  if canonical then Number.word? (if negative then -magnitude else magnitude) else none

-- Array keys are integers and strings. A string that is the decimal form of an
-- integer is that integer.
def toKey? : Value → Option Key
  | null => some (.text "")
  | bool b => some (.int (wordOfBool b))
  | int n => some (.int n)
  | float x => some (.int (Number.wordOfFloat x))
  | string s => some ((canonicalInt? s.toList).elim (.text s) .int)
  | _ => none

end PhpLint.Value
