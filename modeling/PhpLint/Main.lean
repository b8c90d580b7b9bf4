import PhpLint.CommandLine.Check

namespace PhpLint

-- Gives nothing in place of an error.
def attempt? {α : Type} (action : IO α) : IO (Option α) := do
  try return some (← action) catch _ => return none

def readText? (path : String) : IO (Option String) := do
  return (← attempt? (IO.FS.readBinFile path)).bind (String.fromUTF8? ·)

-- The names on the way to the files below a directory.
partial def namesBelow (path : String) : IO (List (List String)) := do
  let place := (← IO.currentDir) / path
  let entries ← place.readDir
  let found ← entries.toList.mapM fun entry => do
    if ← entry.path.isDir then
      return (← namesBelow (Path.join path entry.fileName)).map (entry.fileName :: ·)
    else return [[entry.fileName]]
  return found.flatten

-- The files of the system, with paths from the current directory on.
def systemDisk : Disk IO where
  kind? path := do
    let place := (← IO.currentDir) / path
    if ← place.isDir then return some .directory
    else if ← place.pathExists then return some .file
    else return none
  read? := readText?
  list? path := attempt? (namesBelow path)
  write path text := do return (← attempt? (IO.FS.writeFile path text)).isSome

def printMessage (message : Message) : IO Unit := do
  if let .summary _ := message then IO.println ""
  IO.println message.text

def usageText : String :=
  "Usage: [check] [-v | --verbose] [--blame] [--report-json FILE] [--config FILE]\n" ++
    "       [--color auto|always|never] [--arrows unicode|ascii] [PATH]"

def versionText : String :=
  "0.1.0"

-- The status is 1 for a failed run and 2 for arguments that are not understood.
def runArguments (arguments : List String) : IO UInt32 := do
  match Arguments.parse arguments with
  | .error .help =>
    IO.println usageText
    return 0
  | .error .version =>
    IO.println versionText
    return 0
  | .error .usage =>
    IO.eprintln usageText
    return 2
  | .ok request =>
    match ← (check systemDisk printMessage request).run with
    | .ok () => return 0
    | .error error =>
      IO.println ""
      IO.eprintln ("Error: " ++ error.message)
      return 1

end PhpLint

def main (arguments : List String) : IO UInt32 :=
  PhpLint.runArguments arguments
