namespace PhpLint

inductive ColorChoice where
  | auto | always | never
  deriving DecidableEq, Repr

inductive ArrowStyle where
  | unicode | ascii
  deriving DecidableEq, Repr

def ColorChoice.ofName? : String → Option ColorChoice
  | "auto" => some auto
  | "always" => some always
  | "never" => some never
  | _ => none

def ArrowStyle.ofName? : String → Option ArrowStyle
  | "unicode" => some unicode
  | "ascii" => some ascii
  | _ => none

-- What is asked of a run: the file or directory to check, where to write a report and
-- where to find the settings, and how to print.
structure Request where
  path : String := "."
  report : Option String := none
  settings : Option String := none
  blame : Bool := false
  verbose : Bool := false
  color : ColorChoice := .auto
  arrows : ArrowStyle := .unicode
  deriving DecidableEq, Repr

-- Why arguments do not lead to a run.
inductive ArgumentStop where
  | usage | help | version
  deriving DecidableEq, Repr

namespace Arguments

-- What was given so far.
structure Draft where
  path : Option String := none
  report : Option String := none
  settings : Option String := none
  blame : Bool := false
  verbose : Bool := false
  color : Option ColorChoice := none
  arrows : Option ArrowStyle := none

def Draft.request (d : Draft) : Request where
  path := d.path.getD "."
  report := d.report
  settings := d.settings
  blame := d.blame
  verbose := d.verbose
  color := d.color.getD .auto
  arrows := d.arrows.getD .unicode

-- A setter gives nothing if the argument was given before or cannot be understood.
abbrev Setter := Draft → Option Draft

def once {α : Type} (before new : Option α) : Option (Option α) :=
  if before.isSome || new.isNone then none else some new

def nonEmpty (text : String) : Option String :=
  if text.isEmpty then none else some text

def setPath (path : String) : Setter := fun d => do
  return { d with path := ← once d.path (nonEmpty path) }

def setVerbose : Setter := fun d =>
  if d.verbose then none else some { d with verbose := true }

def flag? : String → Option Setter
  | "verbose" => some setVerbose
  | "blame" => some fun d => if d.blame then none else some { d with blame := true }
  | _ => none

def option? : String → Option (String → Setter)
  | "report-json" => some fun value d => do
    return { d with report := ← once d.report (nonEmpty value) }
  | "config" => some fun value d => do
    return { d with settings := ← once d.settings (nonEmpty value) }
  | "color" => some fun value d => do
    return { d with color := ← once d.color (ColorChoice.ofName? value) }
  | "arrows" => some fun value d => do
    return { d with arrows := ← once d.arrows (ArrowStyle.ofName? value) }
  | _ => none

def orUsage (draft : Option Draft) : Except ArgumentStop Draft :=
  match draft with
  | some d => .ok d
  | none => .error .usage

-- Letters after a single hyphen.
def letters (d : Draft) : List Char → Except ArgumentStop Draft
  | [] => .ok d
  | 'v' :: cs => do letters (← orUsage (setVerbose d)) cs
  | 'h' :: _ => .error .help
  | 'V' :: _ => .error .version
  | _ => .error .usage

inductive Shape where
  | separator
  | long (name : String) (value : Option String)
  | short (letters : List Char)
  | plain

-- A hyphen alone is no option.
def shape (argument : String) : Shape :=
  match argument.toList with
  | ['-', '-'] => .separator
  | '-' :: '-' :: cs =>
    let name := String.ofList (cs.takeWhile (· != '='))
    match cs.dropWhile (· != '=') with
    | _ :: value => .long name (some (String.ofList value))
    | [] => .long name none
  | '-' :: c :: cs => .short (c :: cs)
  | _ => .plain

-- After the separator all arguments are paths.
def paths (d : Draft) : List String → Except ArgumentStop Draft
  | [] => .ok d
  | path :: rest => do paths (← orUsage (setPath path d)) rest

-- An option takes its value after an equals sign or as the next argument, which then
-- must not look like an option.
def options (d : Draft) : List String → Except ArgumentStop Draft
  | [] => .ok d
  | argument :: rest =>
    match shape argument with
    | .separator => paths d rest
    | .plain => do options (← orUsage (setPath argument d)) rest
    | .short cs => do options (← letters d cs) rest
    | .long "help" none => .error .help
    | .long "version" none => .error .version
    | .long name (some value) =>
      match option? name with
      | some set => do options (← orUsage (set value d)) rest
      | none => .error .usage
    | .long name none =>
      match flag? name with
      | some set => do options (← orUsage (set d)) rest
      | none =>
        match option? name, rest with
        | some set, value :: more =>
          match shape value with
          | .plain => do options (← orUsage (set value d)) more
          | _ => .error .usage
        | _, _ => .error .usage

-- The word for a check may stand in front of all other arguments.
def parse : List String → Except ArgumentStop Request
  | "check" :: arguments => Draft.request <$> options {} arguments
  | "help" :: topics =>
    if topics ∈ [[], ["check"], ["help"]] then .error .help else .error .usage
  | arguments => Draft.request <$> options {} arguments

end Arguments

end PhpLint
