import PhpLint.Source.Location

namespace PhpLint

inductive Severity where
  | notice | warning | error | fatal
  deriving DecidableEq, Repr

namespace Severity

def all : List Severity :=
  [notice, warning, error, fatal]

def name : Severity → String
  | notice => "notice"
  | warning => "warning"
  | error => "error"
  | fatal => "fatal"

def isFailure : Severity → Bool
  | notice | warning => false
  | error | fatal => true

end Severity

structure Issue where
  code : String
  severity : Severity
  message : String
  location : Location
  deriving DecidableEq, Repr

-- Two issues report the same finding if they have the same code and place.
def Issue.repeats (a b : Issue) : Bool :=
  a.code == b.code && a.location == b.location

-- The issues of an analysis in the order in which they were reported.
abbrev Issues := List Issue

namespace Issues

def isNew (issues : Issues) (issue : Issue) : Bool :=
  !issues.any issue.repeats

-- A finding is reported once.
def report (issues : Issues) (issue : Issue) : Issues :=
  if issues.isNew issue then issues ++ [issue] else issues

-- Issues up to a checkpoint, which is the number of issues at that time.
def rollback (issues : Issues) (checkpoint : Nat) : Issues :=
  issues.take checkpoint

end Issues

end PhpLint
