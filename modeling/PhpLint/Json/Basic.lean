import PhpLint.Json.Text

namespace PhpLint

-- A number keeps its written form. A text is none if it holds half of a pair of units.
inductive Json where
  | null
  | bool (b : Bool)
  | number (text : String)
  | string (text : Option String)
  | array (elements : List Json)
  | object (members : List (Option String × Json))

namespace Json

def isSpace (c : Char) : Bool :=
  c == ' ' || c == '\n' || c == '\t' || c == '\r'

-- A reader takes characters from the front of a text.
abbrev Reader := StateT (List Char) Option

namespace Reader

def skipSpace : Reader Unit :=
  modify (·.dropWhile isSpace)

-- Takes a character after spaces, if it is the given one.
def eat (c : Char) : Reader Bool := do
  skipSpace
  match ← get with
  | d :: rest =>
    if c = d then
      set rest
      return true
    else return false
  | [] => return false

def expect (c : Char) : Reader Unit := do
  if ← eat c then return else failure

def digits : Reader (List Char) := do
  let cs ← get
  set (cs.dropWhile Char.isDigit)
  return cs.takeWhile Char.isDigit

def someDigits : Reader (List Char) := do
  let found ← digits
  if found.isEmpty then failure else return found

-- Takes the next character if it is one of those given.
def oneOf (chars : List Char) : Reader (List Char) := do
  match ← get with
  | c :: rest =>
    if c ∈ chars then
      set rest
      return [c]
    else return []
  | [] => return []

-- A mark and the digits that have to follow it, or nothing.
def marked (mark : Reader (List Char)) (sign : Reader (List Char)) : Reader (List Char) := do
  let found ← mark
  if found.isEmpty then return []
  return found ++ (← sign) ++ (← someDigits)

-- Zero is the only number that starts with one.
def number : Reader Json := do
  let sign ← oneOf ['-']
  let whole ← someDigits
  if whole.head? == some '0' && 1 < whole.length then failure
  let fraction ← marked (oneOf ['.']) (pure [])
  let power ← marked (oneOf ['e', 'E']) (oneOf ['+', '-'])
  return .number (String.ofList (sign ++ whole ++ fraction ++ power))

def word (text : String) (value : Json) : Reader Json := do
  let cs ← get
  if text.toList.isPrefixOf cs then
    set (cs.drop text.length)
    return value
  else failure

def text : Reader (Option String) := fun cs => scanText cs

-- No more than two rounds in a row pass without a character being taken.
mutual
def value : Nat → Reader Json
  | 0 => failure
  | rounds + 1 => do
    skipSpace
    match ← get with
    | '"' :: rest => do
      set rest
      return .string (← text)
    | '[' :: rest => do
      set rest
      if ← eat ']' then return .array [] else return .array (← elements rounds)
    | '\x7b' :: rest => do
      set rest
      if ← eat '\x7d' then return .object [] else return .object (← members rounds)
    | 't' :: _ => word "true" (.bool true)
    | 'f' :: _ => word "false" (.bool false)
    | 'n' :: _ => word "null" .null
    | _ => number

def elements : Nat → Reader (List Json)
  | 0 => failure
  | rounds + 1 => do
    let first ← value rounds
    if ← eat ',' then return first :: (← elements rounds)
    else
      expect ']'
      return [first]

def members : Nat → Reader (List (Option String × Json))
  | 0 => failure
  | rounds + 1 => do
    expect '"'
    let key ← text
    expect ':'
    let first ← value rounds
    if ← eat ',' then return (key, first) :: (← members rounds)
    else
      expect '\x7d'
      return [(key, first)]
end

end Reader

-- The value that a whole text denotes.
def ofText? (text : String) : Option Json := do
  let cs := text.toList
  let (result, rest) ← Reader.value (2 * cs.length + 2) cs
  if rest.all isSpace then some result else none

def text? : Json → Option String
  | string text => text
  | _ => none

-- A number without sign, point and power of ten that fits into 64 bits.
def natural? : Json → Option Nat
  | number text =>
    match Number.ofDigits? 10 text.toList with
    | some n => if n < UInt64.size then some n else none
    | none => none
  | _ => none

-- The values of the named members of an object, each of which is there once. Other
-- members are ignored if they may be there. A list of values is taken in the same order.
def record? (names : List String) (strict : Bool) : Json → Option (List Json)
  | array elements => if elements.length = names.length then some elements else none
  | object members => do
    let keys ← members.mapM Prod.fst
    if strict && keys.any (· ∉ names) then none
    names.mapM fun name =>
      match members.filter (·.1 == some name) with
      | [(_, value)] => some value
      | _ => none
  | _ => none

end Json

end PhpLint
