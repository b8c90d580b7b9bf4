import PhpLint.Analysis.Issue
import PhpLint.Json.Basic

namespace PhpLint

namespace Report

def field (indent : String) (name value : String) : String :=
  indent ++ Json.quote name ++ ": " ++ value

def block (indent : String) (fields : List String) : String :=
  "\x7b\n" ++ ",\n".intercalate fields ++ "\n" ++ indent ++ "\x7d"

def renderLocation (l : Location) : String :=
  block "    " [
    field "      " "source_filename" (Json.quote l.file),
    field "      " "span" (block "      " [
      field "        " "start" (toString l.start), field "        " "end" (toString l.stop)]),
    field "      " "line_start" (toString l.firstLine),
    field "      " "line_end" (toString l.lastLine)]

def renderIssue (i : Issue) : String :=
  "  " ++ block "  " [
    field "    " "code" (Json.quote i.code),
    field "    " "severity" (Json.quote i.severity.name),
    field "    " "message" (Json.quote i.message),
    field "    " "location" (renderLocation i.location)]

-- Issues as a list of objects, one member a line.
def render (issues : Issues) : String :=
  if issues.isEmpty then "[]" else "[\n" ++ ",\n".intercalate (issues.map renderIssue) ++ "\n]"

-- A severity is written as its name, or as the only member of an object, without a value.
def severity? (json : Json) : Option Severity := do
  let name ←
    match json with
    | .string text => text
    | .object [(key, .null)] => key
    | _ => none
  Severity.all.find? (·.name == name)

def span? (json : Json) : Option (Nat × Nat) := do
  match ← json.record? ["start", "end"] true with
  | [start, stop] => some (← start.natural?, ← stop.natural?)
  | _ => none

def location? (json : Json) : Option Location := do
  match ← json.record? ["source_filename", "span", "line_start", "line_end"] false with
  | [file, span, firstLine, lastLine] =>
    let (start, stop) ← span? span
    some ⟨← file.text?, start, stop, ← firstLine.natural?, ← lastLine.natural?⟩
  | _ => none

def issue? (json : Json) : Option Issue := do
  match ← json.record? ["code", "severity", "message", "location"] false with
  | [code, severity, message, location] =>
    some ⟨← code.text?, ← severity? severity, ← message.text?, ← location? location⟩
  | _ => none

def read? (text : String) : Option Issues := do
  match ← Json.ofText? text with
  | .array elements => elements.mapM issue?
  | _ => none

end Report

end PhpLint
