import PhpLint.Analysis.Dispatcher
import PhpLint.Syntax.DocBlock
import PhpLint.Value.Convert

namespace PhpLint.Rule

def inspectArray : Node → List Issue
  | .expr (.array _ .long location) _ =>
    [⟨"array.short-syntax", .notice, "Please use [] (short syntax) for array definition.", location⟩]
  | _ => []

-- The places where a statement returns a value. Declarations inside it return on their own.
mutual
def valuedReturns : Stmt → List Location
  | .ret (some _) location => [location]
  | .ifThen _ thenBranch _ => valuedReturns thenBranch
  | .ifElse _ thenBranch elseBranch _ => valuedReturns thenBranch ++ valuedReturns elseBranch
  | .loop _ body _ => valuedReturns body
  | .block ⟨statements, _⟩ => listValuedReturns statements
  | .ret none _ | .expr .. | .echo .. | .html _ | .functionDecl .. | .classDecl .. | .constDecl ..
  | .invalid _ => []

def listValuedReturns : List Stmt → List Location
  | [] => []
  | s :: ss => valuedReturns s ++ listValuedReturns ss
end

def returnsNothing (name : String) : Bool :=
  name.toLower == "__construct" || name.toLower == "__destruct"

def inspectReturns : Node → List Issue
  | .method ⟨signature, _, some body, _⟩ =>
    if returnsNothing signature.name.name then
      (listValuedReturns body.statements).map fun location =>
        ⟨"return.construct", .notice, "Method " ++ signature.name.name ++ " cannot return a value.",
          location⟩
    else []
  | _ => []

def inspectAnnotation : Node → List Issue
  | .method ⟨⟨name, _, some doc⟩, _, _, _⟩ =>
    if name.name.startsWith "test" && (DocBlock.ofText doc.text).hasTag "test" then
      [⟨"test.annotation", .notice,
        "Annotation @test is not needed when the method is prefixed with test.", name.location⟩]
    else []
  | _ => []

def conditionIssues (condition : Expr) (operands : List Value) : List Issue :=
  (operands.head?.bind Value.truthy?).toList.map fun holds =>
    ⟨"condition.constant", .notice,
      if holds then "Condition is always true." else "Condition is always false.",
      condition.location⟩

-- How a loop without an end is written on purpose.
def isEndless : Expr → Bool
  | .literal (.bool true) _ => true
  | .literal (.int n) _ => n == 1
  | _ => false

def inspectCondition : Node → List Issue
  | .stmt (.ifThen condition _ _) operands => conditionIssues condition operands
  | .stmt (.ifElse condition _ _ _) operands => conditionIssues condition operands
  | .stmt (.loop condition _ _) operands =>
    if isEndless condition then [] else conditionIssues condition operands
  | _ => []

end PhpLint.Rule
