import PhpLint.Files.Path
import PhpLint.Value.Entries

namespace PhpLint

inductive FileTree where
  | file (content : ByteArray)
  | directory (entries : List (String × FileTree))

namespace FileTree

def empty : FileTree :=
  directory []

def isDirectory : FileTree → Bool
  | directory _ => true
  | file _ => false

def children : FileTree → Entries String FileTree
  | directory entries => entries
  | file _ => []

-- What stands at the end of a list of names.
def at? (tree : FileTree) : List String → Option FileTree
  | [] => some tree
  | name :: names => do (← tree.children.get? name).at? names

-- Puts a tree at the end of a list of names. Directories on the way are made.
def put (tree : FileTree) (new : FileTree) : List String → FileTree
  | [] => new
  | name :: names =>
    directory (tree.children.put name (put ((tree.children.get? name).getD empty) new names))

-- Follows the parts of a path from the names of a directory on. Every part has to stand
-- in a directory, also one that stays there. No path leads out of the tree.
def follow (tree : FileTree) : List String → List String → Option (List String)
  | names, [] => some names
  | names, part :: parts => do
    let here ← tree.at? names
    if !here.isDirectory then none
    else if part.isEmpty || part == "." then tree.follow names parts
    else if part == ".." then
      if names.isEmpty then none else tree.follow names.dropLast parts
    else if (here.children.get? part).isSome then tree.follow (names ++ [part]) parts
    else none

-- The names that a relative path leads to.
def resolve? (tree : FileTree) (path : String) : Option (List String) :=
  if path.isEmpty || path.startsWith "/" then none else tree.follow [] (Path.parts path)

def lookup? (tree : FileTree) (path : String) : Option FileTree := do
  tree.at? (← tree.resolve? path)

def text? : FileTree → Option String
  | file content => String.fromUTF8? content
  | directory _ => none

-- Writes a file into a directory that exists.
def write? (tree : FileTree) (path : String) (text : String) : Option FileTree := do
  let parts := Path.parts path
  let name ← parts.getLast?
  if path.startsWith "/" || name.isEmpty || name == "." || name == ".." then none
  let names ← tree.follow [] parts.dropLast
  let directory ← tree.at? names
  if !directory.isDirectory || (directory.children.get? name).any isDirectory then none
  return tree.put (file text.toUTF8) (names ++ [name])

-- The names that lead to the files in a directory and in those below it.
mutual
def filesBelow : FileTree → List (List String)
  | file _ => [[]]
  | directory entries => entriesBelow entries

def entriesBelow : List (String × FileTree) → List (List String)
  | [] => []
  | (name, tree) :: rest => (filesBelow tree).map (name :: ·) ++ entriesBelow rest
end

end FileTree

end PhpLint
