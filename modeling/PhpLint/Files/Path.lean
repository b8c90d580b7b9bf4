namespace PhpLint.Path

-- The parts of a path between its slashes.
def parts (path : String) : List String :=
  (path.toList.splitOn '/').map String.ofList

-- A name inside a directory, with one slash between them.
def join (directory name : String) : String :=
  if directory.isEmpty || directory.endsWith "/" then directory ++ name
  else directory ++ "/" ++ name

-- Parts at the end that do not lead anywhere are dropped, but the first one stays.
def dropIdle (parts : List String) : List String :=
  match parts with
  | [] => []
  | first :: rest => first :: (rest.reverse.dropWhile fun part => part.isEmpty || part == ".").reverse

-- The directory of a file, which is empty for a name alone.
def parent (path : String) : String :=
  match dropIdle (parts path).dropLast with
  | [""] => "/"
  | parts => "/".intercalate parts

def isBefore (a b : String) : Bool :=
  a.toList.lex b.toList fun c d => Nat.blt c.toNat d.toNat

-- Paths are ordered by their names, and names by the codes of their characters.
def inOrder (a b : List String) : Bool :=
  !b.lex a isBefore

-- Whether a name ends in the extension of a source. A name that only consists of an
-- extension has none.
def isSource (name : String) : Bool :=
  name.endsWith ".php" && name != ".php"

end PhpLint.Path
