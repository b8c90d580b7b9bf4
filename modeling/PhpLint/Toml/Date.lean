import PhpLint.Toml.Reader

namespace PhpLint.Toml

namespace Date

-- A scanner gives what follows the part it accepts.
def twoDigits (least greatest : Nat) : List Char → Option (List Char)
  | a :: b :: rest =>
    if a.isDigit && b.isDigit then
      let n := 10 * (a.toNat - 48) + (b.toNat - 48)
      if least ≤ n && n ≤ greatest then some rest else none
    else none
  | _ => none

def char (c : Char) : List Char → Option (List Char)
  | d :: rest => if c = d then some rest else none
  | [] => none

def scanDay (cs : List Char) : Option (List Char) := do
  let cs ← twoDigits 0 99 cs
  let cs ← twoDigits 0 99 cs
  let cs ← char '-' cs
  let cs ← twoDigits 1 12 cs
  let cs ← char '-' cs
  twoDigits 1 31 cs

def scanTime (cs : List Char) : Option (List Char) := do
  let cs ← twoDigits 0 24 cs
  let cs ← char ':' cs
  let cs ← twoDigits 0 59 cs
  let cs ← char ':' cs
  let cs ← twoDigits 0 59 cs
  match cs with
  | '.' :: d :: rest => if d.isDigit then some (rest.dropWhile Char.isDigit) else none
  | '.' :: [] => none
  | _ => some cs

def isOffset : List Char → Bool
  | [] => true
  | sign :: cs =>
    if sign == 'Z' || sign == 'z' then cs.isEmpty
    else if sign == '+' || sign == '-' then
      (twoDigits 0 99 cs >>= char ':' >>= twoDigits 0 99) == some []
    else false

-- A day, a time, or both with an offset after them if it is written.
def isValid (cs : List Char) : Bool :=
  if cs[2]? == some ':' then scanTime cs == some []
  else
    match scanDay cs with
    | none => false
    | some [] => true
    | some (separator :: rest) =>
      if separator == 'T' || separator == 't' || separator == ' ' then (scanTime rest).any isOffset
      else false

end Date

namespace Reader

-- A further word of a date, in front of which a mark may stand.
def datePart (mark : Token) (spelling : String) : Reader String := do
  if ← eat mark then return spelling ++ (← word) else return ""

-- A space and the hour after it.
def spacedHour : Reader String := do
  match ← get with
  | .blank " " :: .word hour :: rest =>
    set rest
    return " " ++ hour
  | _ => return ""

-- What follows a colon in a date: minutes, seconds, their fraction and an offset.
def clock : Reader String := do
  let minutes ← word
  expect .colon
  let seconds ← word
  let fraction ← datePart .period "."
  let offset ← datePart .plus "+"
  let offsetMinutes ← datePart .colon ":"
  return ":" ++ minutes ++ ":" ++ seconds ++ fraction ++ offset ++ offsetMinutes

-- A date that starts with the given word, after which a colon may have been taken.
def date (first : String) (afterColon : Bool) : Reader String := do
  let hour ← spacedHour
  let time ← if afterColon then clock else if ← eat .colon then clock else pure ""
  let text := first ++ hour ++ time
  if Date.isValid text.toList then return text else failure

end Reader

end PhpLint.Toml
