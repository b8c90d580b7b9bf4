import PhpLint.Analysis.Evaluation
import PhpLint.Settings.Basic
import PhpLint.Syntax.Program

namespace PhpLint

-- The issues that the rules of the settings find in statements.
def analyze (settings : Settings) (statements : List Stmt) : Issues :=
  (run (Dispatcher.ofPasses (settings.rules.map Rule.pass)) {} statements).issues

-- The issues in a source without errors, or its errors.
def analyzeSource (settings : Settings) (source file : String) :
    Except (List SyntaxError) Issues :=
  match parseSource source file with
  | (statements, []) => .ok (analyze settings statements)
  | (_, errors) => .error errors

end PhpLint
