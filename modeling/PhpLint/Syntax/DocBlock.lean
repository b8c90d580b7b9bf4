import PhpLint.Text.Blank

namespace PhpLint

structure DocTag where
  name : String
  body : String
  deriving DecidableEq, Repr

-- The content of a documentation comment.
structure DocBlock where
  summary : String
  tags : List DocTag
  deriving DecidableEq, Repr

namespace DocBlock

open Text

-- The lines of a comment without its delimiters, the asterisk in front of each line
-- and the blanks around it.
def contentLines (text : List Char) : List (List Char) :=
  let text := trim text
  let text := (dropPrefix? ['/', '*', '*'] text).getD text
  let text := (dropSuffix? ['*', '/'] text).getD text
  (lines text).map fun line =>
    let line := trimStart line
    trim ((dropPrefix? ['*'] line).getD line)

def startsTag : List Char → Bool
  | '@' :: _ => true
  | _ => false

-- The first paragraph, which ends in front of a tag at the latest.
def summaryOf (content : List (List Char)) : String :=
  let paragraph := (content.dropWhile List.isEmpty).takeWhile fun line =>
    !line.isEmpty && !startsTag line
  " ".intercalate (paragraph.map String.ofList)

def tagOf (text : List Char) : DocTag :=
  let inName (c : Char) : Bool := !isBlank c && c != '('
  ⟨String.ofList (text.takeWhile inName), String.ofList (trim (text.dropWhile inName))⟩

-- Adds a further line to the body of a tag.
def extendTag (tag : DocTag) (line : List Char) : DocTag :=
  let line := String.ofList line
  { tag with body := if tag.body.isEmpty then line else tag.body ++ " " ++ line }

-- Takes in a line, with the tags so far from the last to the first. A tag without a
-- name is dropped.
def addLine (tags : List DocTag) (line : List Char) : List DocTag :=
  match line, tags with
  | '@' :: text, _ =>
    let tag := tagOf text
    if tag.name.isEmpty then tags else tag :: tags
  | [], _ => tags
  | _, last :: earlier => extendTag last line :: earlier
  | _, [] => []

def ofText (text : String) : DocBlock :=
  let content := contentLines text.toList
  ⟨summaryOf content, (content.foldl addLine []).reverse⟩

def hasTag (doc : DocBlock) (name : String) : Bool :=
  doc.tags.any (·.name == name)

end DocBlock

end PhpLint
