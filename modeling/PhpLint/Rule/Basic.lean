import PhpLint.Rule.Call
import PhpLint.Rule.Structure

namespace PhpLint

-- The rules that sources are checked against. The rule on debug code can be told of
-- further functions.
inductive Rule where
  | aliasCheck
  | debugCode (further : List String)
  | randomMigration
  | useCast
  | deprecatedOptions
  | shortArrays
  | cannotReturn
  | testAnnotation
  | constantCondition
  deriving DecidableEq, Repr

namespace Rule

-- In the order in which they look at a node.
def all (further : List String) : List Rule :=
  [aliasCheck, debugCode further, randomMigration, useCast, deprecatedOptions, shortArrays,
    cannotReturn, testAnnotation, constantCondition]

-- The key of the rule in the settings.
def name : Rule → String
  | aliasCheck => "alias_check"
  | debugCode _ => "debug_code"
  | randomMigration => "random_api_migration"
  | useCast => "use_cast"
  | deprecatedOptions => "deprecated_ini_options"
  | shortArrays => "array_short_definition"
  | cannotReturn => "method_cannot_return"
  | testAnnotation => "test_annotation"
  | constantCondition => "constant_condition"

def kinds : Rule → List NodeKind
  | aliasCheck | debugCode _ | randomMigration | useCast | deprecatedOptions => [.call]
  | shortArrays => [.array]
  | cannotReturn | testAnnotation => [.method]
  | constantCondition => [.condition, .loop]

def inspect : Rule → Node → List Issue
  | aliasCheck => inspectAlias
  | debugCode further => inspectDebug further
  | randomMigration => inspectRandom
  | useCast => inspectCast
  | deprecatedOptions => inspectOption
  | shortArrays => inspectArray
  | cannotReturn => inspectReturns
  | testAnnotation => inspectAnnotation
  | constantCondition => inspectCondition

-- Whether the settings may turn the rule off.
def isOptional : Rule → Bool
  | constantCondition => false
  | _ => true

def options : Rule → List String
  | debugCode _ => ["functions"]
  | _ => []

def pass (rule : Rule) : Pass where
  name := rule.name
  kinds := rule.kinds
  inspect := rule.inspect

end Rule

end PhpLint
