import PhpLint.Analysis.Issue
import PhpLint.Syntax.Error

namespace PhpLint

-- Totals of a run.
structure Summary where
  files : Nat := 0
  failedFiles : Nat := 0
  issues : Nat := 0
  failures : Nat := 0
  deriving DecidableEq, Repr

namespace Summary

def isSuccess (s : Summary) : Bool :=
  s.failedFiles == 0 && s.failures == 0

def addIssues (s : Summary) (issues : Issues) : Summary :=
  { s with
    files := s.files + 1
    issues := s.issues + issues.length
    failures := s.failures + (issues.filter (·.severity.isFailure)).length }

def addFailedFile (s : Summary) : Summary :=
  { s with files := s.files + 1, failedFiles := s.failedFiles + 1 }

def text (s : Summary) : String :=
  "Checked " ++ toString s.files ++ " file(s): " ++ toString s.issues ++ " issue(s)" ++
    (if s.failures = 0 then ""
      else ", " ++ toString s.failures ++ " at " ++ Severity.error.name ++ " or above") ++
    (if s.failedFiles = 0 then ""
      else ", " ++ toString s.failedFiles ++ " file(s) could not be parsed") ++ "."

end Summary

def Severity.label : Severity → String
  | notice => "Advice"
  | warning => "Warning"
  | error | fatal => "Error"

def Issue.headline (i : Issue) : String :=
  "[" ++ i.code ++ "] " ++ i.severity.label ++ ": " ++ i.message

-- What a run prints.
inductive Message where
  | manyFiles (count : Nat)
  | analyzing (file : String)
  | issue (issue : Issue)
  | syntaxError (error : SyntaxError)
  | summary (summary : Summary)
  deriving DecidableEq, Repr

def Message.text : Message → String
  | manyFiles count => "Analyzing " ++ toString count ++ " files, this may take a while."
  | analyzing file => "Analyzing " ++ file ++ "..."
  | issue i => i.headline
  | syntaxError e => e.headline
  | summary s => s.text

-- Why a run fails.
inductive RunError where
  | noSuchPath (path : String)
  | cannotLoad (path : String)
  | cannotList (path : String)
  | cannotRead (path : String)
  | cannotWrite (path : String)
  | analysisFailed
  deriving DecidableEq, Repr

def RunError.message : RunError → String
  | noSuchPath path => "no such file or directory: '" ++ path ++ "'"
  | cannotLoad path => "failed to load '" ++ path ++ "'"
  | cannotList path => "failed to read directory '" ++ path ++ "'"
  | cannotRead path => "failed to read '" ++ path ++ "'"
  | cannotWrite path => "failed to write '" ++ path ++ "'"
  | analysisFailed => "analysis failed"

end PhpLint
