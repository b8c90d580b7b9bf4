import PhpLint.Files.Tree

namespace PhpLint

inductive FileKind where
  | file | directory
  deriving DecidableEq, Repr

-- Access to files by their paths.
structure Disk (m : Type → Type) where
  kind? : String → m (Option FileKind)
  -- The text of a file, unless it cannot be read as text.
  read? : String → m (Option String)
  -- The names that lead to the files in and below a directory, in any order.
  list? : String → m (Option (List (List String)))
  -- Whether a file could be written.
  write : String → String → m Bool

namespace Disk

-- Files in memory. Paths start from the top of the tree.
def memory : Disk (StateM FileTree) where
  kind? path := do
    return ((← get).lookup? path).map fun tree => if tree.isDirectory then .directory else .file
  read? path := do
    return (← get).lookup? path >>= FileTree.text?
  list? path := do
    return ((← get).lookup? path).map FileTree.filesBelow
  write path text := do
    match (← get).write? path text with
    | some tree =>
      set tree
      return true
    | none => return false

end Disk

end PhpLint
