import PhpLint.Toml.Token

namespace PhpLint.Toml

-- A reader takes tokens from the front of a list.
abbrev Reader := StateT (List Token) Option

namespace Reader

def next : Reader Token := do
  match ← get with
  | [] => failure
  | token :: rest =>
    set rest
    return token

def eat (token : Token) : Reader Bool := do
  match ← get with
  | [] => return false
  | first :: rest =>
    if first = token then
      set rest
      return true
    else return false

def expect (token : Token) : Reader Unit := do
  if ← eat token then return else failure

def skipBlank : Reader Unit := do
  if let .blank _ :: rest ← get then set rest

def word : Reader String := do
  match ← next with
  | .word text => return text
  | _ => failure

-- A key is a word, or a text on one line.
def key : Reader String := do
  match ← next with
  | .word text => return text
  | .quoted text false => return text
  | _ => failure

def morePath : Nat → Reader (List String)
  | 0 => failure
  | rounds + 1 => do
    skipBlank
    if ← eat .period then
      skipBlank
      let first ← key
      return first :: (← morePath rounds)
    else return []

-- Keys with periods between them.
def path : Reader (List String) := do
  let first ← key
  return first :: (← morePath ((← get).length + 1))

end Reader

end PhpLint.Toml
