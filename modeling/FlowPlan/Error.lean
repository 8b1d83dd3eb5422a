import FlowPlan.Condition.Parser

/-! # What can go wrong

Causes are values; each of them has one wording.
-/

namespace FlowPlan

/-- Steps that cannot be put in order, or that cannot be referred to. -/
inductive PlanError where
  | outputsWithoutId (outputs : List String)
  | cycle (labels : List String)
deriving DecidableEq, Repr

/-- A definition that describes no workflow. -/
inductive DefinitionError where
  | unknownStep (name : String)
  | unknownJob (name : String)
  | malformedCrossJobReference (reference : String)
  | circular (labels : List String)
  | expression (error : ExpressionError)
deriving DecidableEq, Repr

namespace ExpressionFault

def reason : ExpressionFault → String
  | .empty => "empty expression"
  | .unbalancedParentheses => "unbalanced parentheses"
  | .unterminatedString => "unterminated string literal"

end ExpressionFault

/-- A way through labels, from the first to the last. -/
def pathText (labels : List String) : String := String.intercalate " → " labels

namespace PlanError

def message : PlanError → String
  | .outputsWithoutId outputs =>
    "Step declares outputs [" ++ String.intercalate ", " outputs ++ "] but has no id"
  | .cycle labels => "Circular dependency detected: " ++ pathText labels

end PlanError

namespace DefinitionError

def message : DefinitionError → String
  | .unknownStep name => "Unknown step reference '" ++ name ++ "'"
  | .unknownJob name => "Unknown job '" ++ name ++ "'"
  | .malformedCrossJobReference reference =>
    "Invalid cross-job step reference '" ++ reference ++ "', expected 'job.step'"
  | .circular labels => "Circular step definition: " ++ pathText labels
  | .expression error =>
    "Could not parse expression '" ++ String.ofList error.text ++ "': " ++ error.fault.reason

end DefinitionError

end FlowPlan
