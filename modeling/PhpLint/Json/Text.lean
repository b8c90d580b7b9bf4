import PhpLint.Number.Digits

namespace PhpLint.Json

-- Quotes, backslashes and control characters are escaped.
def escape (c : Char) : List Char :=
  match c with
  | '"' => ['\\', '"']
  | '\\' => ['\\', '\\']
  | '\x08' => ['\\', 'b']
  | '\x0c' => ['\\', 'f']
  | '\n' => ['\\', 'n']
  | '\r' => ['\\', 'r']
  | '\t' => ['\\', 't']
  | c =>
    if c < ' ' then
      ['\\', 'u', '0', '0', Nat.digitChar (c.toNat / 16), Nat.digitChar (c.toNat % 16)]
    else [c]

def quote (text : String) : String :=
  "\"" ++ String.ofList (text.toList.flatMap escape) ++ "\""

def simpleEscape? : Char → Option Char
  | '"' => some '"'
  | '\\' => some '\\'
  | '/' => some '/'
  | 'b' => some '\x08'
  | 'f' => some '\x0c'
  | 'n' => some '\n'
  | 'r' => some '\r'
  | 't' => some '\t'
  | _ => none

-- The four hexadecimal digits of a unit of 16 bits, after the letter in front of them.
def scanUnit : List Char → Option (Nat × List Char)
  | '\\' :: 'u' :: a :: b :: c :: d :: rest =>
    (Number.ofDigits? 16 [a, b, c, d]).map (·, rest)
  | _ => none

def isHighUnit (n : Nat) : Bool :=
  0xd800 ≤ n && n < 0xdc00

def isLowUnit (n : Nat) : Bool :=
  0xdc00 ≤ n && n < 0xe000

-- A character above the first plane is written as a pair of units. One half of a pair
-- is no character.
def scanEscapedUnit (cs : List Char) : Option (Option Char × List Char) := do
  let (first, rest) ← scanUnit cs
  if isHighUnit first then
    match scanUnit rest with
    | some (second, more) =>
      if isLowUnit second then
        some (some (Char.ofNat (0x10000 + (first - 0xd800) * 0x400 + (second - 0xdc00))), more)
      else some (none, rest)
    | none => some (none, rest)
  else if isLowUnit first then some (none, rest)
  else some (some (Char.ofNat first), rest)

def scanChar : List Char → Option (Option Char × List Char)
  | '\\' :: 'u' :: cs => scanEscapedUnit ('\\' :: 'u' :: cs)
  | '\\' :: c :: cs => (simpleEscape? c).map fun c => (some c, cs)
  | '\\' :: [] => none
  | c :: cs => if ' ' ≤ c then some (some c, cs) else none
  | [] => none

-- The characters up to the closing quote, one in a round.
def scanChars : Nat → List Char → Option (List (Option Char) × List Char)
  | _, '"' :: rest => some ([], rest)
  | 0, _ => none
  | rounds + 1, cs => do
    let (c, rest) ← scanChar cs
    let (more, rest) ← scanChars rounds rest
    some (c :: more, rest)

-- A text after its opening quote, or none in its place if half of a pair stands alone in it.
def scanText (cs : List Char) : Option (Option String × List Char) := do
  let (chars, rest) ← scanChars cs.length cs
  some ((chars.mapM id).map String.ofList, rest)

end PhpLint.Json
