import PhpLint.Settings.Basic
import PhpLint.Toml.Document

namespace PhpLint

-- Why settings are refused.
inductive SettingsError where
  | malformed
  | unknownRule (rule : String)
  | cannotBeDisabled (rule : String)
  | unknownOption (rule option : String)
  | invalidOption (rule option : String)
  deriving DecidableEq, Repr

def SettingsError.message : SettingsError → String
  | malformed => "failed to parse configuration"
  | unknownRule rule => "unknown analyzer '" ++ rule ++ "', expected one of: " ++
      ", ".intercalate ((Rule.all []).map Rule.name)
  | cannotBeDisabled rule => "analyzer '" ++ rule ++ "' cannot be disabled"
  | unknownOption rule option => "analyzer '" ++ rule ++ "' has no option '" ++ option ++ "'"
  | invalidOption rule option => "option '" ++ option ++ "' of analyzer '" ++ rule ++
      "' must be a list of strings"

namespace Settings

open Toml (Table)

-- A section as it is written. Its options may be of any type.
structure RawSection where
  enabled : Option Bool := none
  options : Table := []

-- A repeated option counts as it comes last, but a rule is enabled or disabled once.
def readSection : RawSection → Table → Option RawSection
  | raw, [] => some raw
  | raw, (key, value) :: rest =>
    if key = "enabled" then
      match raw.enabled, value with
      | none, .bool b => readSection { raw with enabled := some b } rest
      | _, _ => none
    else if value.isProper then
      readSection { raw with options := raw.options.put key value } rest
    else none

def readSections : Entries String RawSection → Table → Option (Entries String RawSection)
  | sections, [] => some sections
  | sections, (key, .table _ entries) :: rest => do
    readSections (sections.put key (← readSection {} entries)) rest
  | _, _ => none

structure RawSettings where
  blame : Option Bool := none
  sections : Option (Entries String RawSection) := none

-- No other keys are known, and neither of the two may repeat.
def readSettings : RawSettings → Table → Option RawSettings
  | settings, [] => some settings
  | settings, (key, value) :: rest =>
    match key, value, settings with
    | "blame", .bool b, ⟨none, sections⟩ => readSettings ⟨some b, sections⟩ rest
    | "analyzers", .table _ entries, ⟨blame, none⟩ => do
      readSettings ⟨blame, some (← readSections [] entries)⟩ rest
    | _, _, _ => none

def sorted {α : Type} (entries : Entries String α) : Entries String α :=
  entries.mergeSort fun a b => decide (a.1 ≤ b.1)

def stringList? : Toml.Value → Option (List String)
  | .array values => values.mapM fun
    | .string text => some text
    | _ => none
  | _ => none

def checkOption (rule : Rule) (option : String) (value : Toml.Value) :
    Except SettingsError (String × List String) :=
  if option ∈ rule.options then
    match stringList? value with
    | some texts => .ok (option, texts)
    | none => .error (.invalidOption rule.name option)
  else .error (.unknownOption rule.name option)

def checkSection (name : String) (raw : RawSection) :
    Except SettingsError (String × RuleSettings) := do
  match (Rule.all []).find? (·.name == name) with
  | none => throw (.unknownRule name)
  | some rule =>
    if raw.enabled = some false && !rule.isOptional then throw (.cannotBeDisabled name)
    let options ← (sorted raw.options).mapM fun (option, value) => checkOption rule option value
    return (name, ⟨raw.enabled, options⟩)

-- Sections and the options in them are checked in the order of their names.
def ofText (text : String) : Except SettingsError Settings := do
  match Table.ofText? text >>= readSettings {} with
  | none => throw .malformed
  | some raw =>
    let sections ← (sorted (raw.sections.getD [])).mapM fun (name, rawSection) =>
      checkSection name rawSection
    return ⟨raw.blame.getD false, sections⟩

end Settings

end PhpLint
