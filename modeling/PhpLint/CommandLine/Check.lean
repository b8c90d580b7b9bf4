import PhpLint.Analysis.Source
import PhpLint.CommandLine.Arguments
import PhpLint.CommandLine.Message
import PhpLint.Files.Disk
import PhpLint.Report.Basic
import PhpLint.Settings.Reading

namespace PhpLint

namespace Check

variable {m : Type → Type} [Monad m]

def settingsName : String :=
  ".phpsa.toml"

-- With more files than these the user is told that it may take a while.
def manyFiles : Nat :=
  100

def loadFrom (disk : Disk m) (path : String) : ExceptT RunError m Settings := do
  match (← disk.read? path).map Settings.ofText with
  | some (.ok settings) => return settings
  | _ => throw (.cannotLoad path)

-- Settings that are not asked for are looked up beside the file or in the directory.
def loadSettings (disk : Disk m) (request : Request) (kind : FileKind) :
    ExceptT RunError m Settings := do
  match request.settings with
  | some path => loadFrom disk path
  | none =>
    let directory := if kind = .directory then request.path else Path.parent request.path
    let path := Path.join directory settingsName
    if (← disk.kind? path).isNone then return {} else loadFrom disk path

-- The sources to check, those of a directory in the order of the names on their paths.
def sources (disk : Disk m) (path : String) : FileKind → ExceptT RunError m (List String)
  | .file => return [path]
  | .directory => do
    match ← disk.list? path with
    | none => throw (.cannotList path)
    | some files =>
      let chosen := files.filter fun names => names.getLast?.any Path.isSource
      return (chosen.mergeSort Path.inOrder).map fun names => Path.join path ("/".intercalate names)

-- Analyses a file and tells what was found in it.
def checkFile (disk : Disk m) (say : Message → m Unit) (settings : Settings) (verbose : Bool)
    (done : Summary × Issues) (file : String) : ExceptT RunError m (Summary × Issues) := do
  let (summary, found) := done
  if verbose then say (.analyzing file)
  match ← disk.read? file with
  | none => throw (.cannotRead file)
  | some source =>
    match analyzeSource settings source file with
    | .ok issues =>
      issues.forM fun issue => say (.issue issue)
      return (summary.addIssues issues, found ++ issues)
    | .error errors =>
      errors.forM fun error => say (.syntaxError error)
      return (summary.addFailedFile, found)

end Check

open Check

-- Checks what a request asks for. The report is written before the summary is printed.
def check {m : Type → Type} [Monad m] (disk : Disk m) (say : Message → m Unit) (request : Request) :
    ExceptT RunError m Unit := do
  match ← disk.kind? request.path with
  | none => throw (.noSuchPath request.path)
  | some kind =>
    let loaded ← loadSettings disk request kind
    let settings := { loaded with blame := loaded.blame || request.blame }
    let files ← sources disk request.path kind
    if manyFiles < files.length then say (.manyFiles files.length)
    let (summary, issues) ←
      files.foldlM (checkFile disk say settings request.verbose) ({}, [])
    if let some path := request.report then
      if !(← disk.write path (Report.render issues)) then throw (.cannotWrite path)
    say (.summary summary)
    if !summary.isSuccess then throw .analysisFailed

end PhpLint
