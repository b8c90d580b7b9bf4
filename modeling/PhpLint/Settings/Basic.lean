import PhpLint.Rule.Basic
import PhpLint.Value.Entries

namespace PhpLint

-- What the settings say about one rule.
structure RuleSettings where
  enabled : Option Bool
  options : Entries String (List String)
  deriving DecidableEq, Repr

-- The settings of an analysis, with a section for each rule that they name.
structure Settings where
  blame : Bool := false
  sections : Entries String RuleSettings := []
  deriving DecidableEq, Repr

namespace Settings

def isEnabled (settings : Settings) (rule : String) : Bool :=
  ((settings.sections.get? rule).bind (·.enabled)).getD true

-- The strings that are given for an option, or none if it is not set.
def strings (settings : Settings) (rule option : String) : List String :=
  ((settings.sections.get? rule).bind (·.options.get? option)).getD []

-- The rules that are to be checked.
def rules (settings : Settings) : List Rule :=
  (Rule.all (settings.strings "debug_code" "functions")).filter fun rule =>
    settings.isEnabled rule.name

end Settings

end PhpLint
