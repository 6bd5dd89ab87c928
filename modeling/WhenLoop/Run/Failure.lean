import WhenLoop.Node.Basic
import WhenLoop.Run.Sink

/-!
# Failures

Why a statement was abandoned.  A failure belongs to one statement and does not end the
run.  Of a program that was read without errors only a zero divisor and a refused write
can arise.  The others arise at a node that is out of place.
-/

namespace WhenLoop

/-- Why a statement was abandoned. -/
inductive Failure where
  /-- A divisor is zero. -/
  | divisionByZero
  /-- A node in an expression's place is not an expression. -/
  | notExpression (kind : NodeKind)
  /-- A node in a condition's place is not a condition. -/
  | notCondition (kind : NodeKind)
  /-- A node in a statement's place is not a statement. -/
  | notStatement (kind : NodeKind)
  /-- The sink refused. -/
  | output (refusal : Refusal)
deriving DecidableEq, Repr, Inhabited

/-- The failure in words. -/
def Failure.message : Failure → String
  | divisionByZero => "Division by zero"
  | notExpression kind => "Unknown expression type: " ++ kind.describe
  | notCondition kind => "Unknown condition type: " ++ kind.describe
  | notStatement kind => "Unknown statement type: " ++ kind.describe
  | output refusal => "Failed to write output: " ++ refusal.message

/-- The line that reports the failure. -/
def Failure.report (failure : Failure) : String :=
  "Error: " ++ failure.message

end WhenLoop
