import PhpLint.Toml.Date
import PhpLint.Toml.Number

namespace PhpLint.Toml

namespace Reader

def looksLikeDate (text : String) : Bool :=
  let cs := text.toList
  let pairs := cs.zip (cs.drop 1)
  cs.contains 'T' || cs.contains 't' ||
    ((cs.drop 1).contains '-' && !pairs.contains ('e', '-') && !pairs.contains ('E', '-'))

def wordValue (text : String) : Reader Value := do
  if text == "true" then return .bool true
  else if text == "false" then return .bool false
  else if text == "inf" || text == "nan" || (text.toList.head?.any fun c => c == '-' || c.isDigit) then
    if looksLikeDate text then return .date (← date text false)
    else if ← eat .colon then return .date (← date text true)
    else number text
  else failure

def skipLines : Nat → Reader Unit
  | 0 => pure ()
  | rounds + 1 => do
    skipBlank
    if ← eat .newline then skipLines rounds

-- Blanks and ends of lines.
def skipSpace : Reader Unit := do
  skipLines ((← get).length + 1)

-- No more than two rounds in a row pass without a token being taken.
mutual
def value : Nat → Reader Value
  | 0 => failure
  | rounds + 1 => do
    match ← next with
    | .quoted text _ => return .string text
    | .word text => wordValue text
    | .plus => number (← word)
    | .leftBracket => .array <$> elements rounds
    | .leftBrace => do
      skipBlank
      if ← eat .rightBrace then return .table false []
      else .table false <$> inlineEntries rounds []
    | _ => failure

-- The values of an array after its bracket. A comma may stand after the last one.
def elements : Nat → Reader (List Value)
  | 0 => failure
  | rounds + 1 => do
    skipSpace
    if ← eat .rightBracket then return []
    let first ← value rounds
    skipSpace
    if ← eat .comma then return first :: (← elements rounds)
    else
      expect .rightBracket
      return [first]

-- The entries of a table on one line, of which there is at least one.
def inlineEntries : Nat → Table → Reader Table
  | 0, _ => failure
  | rounds + 1, entries => do
    let keys ← path
    expect .equals
    skipBlank
    let v ← value rounds
    let entries ← entries.addAt v keys
    skipBlank
    if ← eat .rightBrace then return entries
    else
      expect .comma
      skipBlank
      inlineEntries rounds entries
end

def lineEnd : Reader Unit := do
  skipBlank
  if !(← get).isEmpty then expect .newline

end Reader

-- A part of a document: its header, whether that adds an element to an array, and the
-- entries below it.
structure Section where
  header : List String
  isElement : Bool
  entries : Table

namespace Section

open Reader

def readHeader : Reader Section := do
  let isElement ← eat .leftBracket
  skipBlank
  let header ← path
  expect .rightBracket
  if isElement then expect .rightBracket
  lineEnd
  return ⟨header, isElement, []⟩

def readEntry (s : Section) : Reader Section := do
  let keys ← path
  expect .equals
  skipBlank
  let v ← value (2 * (← get).length + 2)
  lineEnd
  return { s with entries := ← s.entries.addAt v keys }

-- The sections of a document from a current one on, a line in a round.
def readAll : Nat → Section → Reader (List Section)
  | 0, _ => failure
  | rounds + 1, current => do
    skipSpace
    match ← get with
    | [] => return [current]
    | .leftBracket :: rest =>
      set rest
      let following ← readHeader
      return current :: (← readAll rounds following)
    | _ => readAll rounds (← readEntry current)

-- The section one key further down.
def descend (s : Section) : Section :=
  { s with header := s.header.drop 1 }

-- Cuts the sections of an array at the headers of its elements.
def splitElements : List Section → List (List Section)
  | [] => []
  | s :: rest =>
    match splitElements rest with
    | [] => [[s]]
    | group :: groups =>
      if group.head?.any fun t => t.header.isEmpty && t.isElement then [s] :: group :: groups
      else (s :: group) :: groups

def closeElement : List Section → List Section
  | s :: rest => { s with isElement := false } :: rest
  | [] => []

-- The table that sections make up. Sections with a common first key stand where the
-- first of them does. The header of the table itself comes at most once.
def assemble : Nat → Bool → List Section → Option Table
  | 0, _, _ => none
  | _, _, [] => some []
  | rounds + 1, hasOwn, s :: rest =>
    match s.header with
    | [] =>
      if hasOwn || s.isElement then none
      else do return s.entries ++ (← assemble rounds true rest)
    | key :: deeper => do
      let (group, others) := (s :: rest).partition (·.header.head? == some key)
      let group := group.map descend
      let entry ←
        if s.isElement && deeper.isEmpty then
          Value.array <$> (splitElements group).mapM fun element =>
            Value.table false <$> assemble rounds false (closeElement element)
        else Value.table false <$> assemble rounds false group
      return (key, entry) :: (← assemble rounds hasOwn others)

-- Every round takes away a section or a key of a header.
def rounds (sections : List Section) : Nat :=
  sections.foldr (fun s count => s.header.length + 1 + count) 1

end Section

-- The table that a text describes.
def Table.ofText? (text : String) : Option Table := do
  let tokens ← Token.ofText text
  let (sections, _) ← Section.readAll (tokens.length + 1) ⟨[], false, []⟩ tokens
  Section.assemble (Section.rounds sections) false sections

end PhpLint.Toml
