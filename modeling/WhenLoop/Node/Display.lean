import WhenLoop.Node.Basic

/-!
# The printed form of a tree

A tree is printed as one line.  Every node but a number, a name and a statement list is
a bracket with a head and its parts, separated by single blanks.  A statement list stands
in braces, with a blank inside each brace unless it is empty.

The heads are not all different.  `-` heads a difference of two parts and a negative of
one.  `=` heads a comparison and an assignment.  A `when` has two parts or three.
-/

namespace WhenLoop

/-- A bracket around a head and its parts. -/
def bracket (head : String) (parts : List String) : String :=
  "(" ++ " ".intercalate (head :: parts) ++ ")"

/-- Braces around the parts of a statement list. -/
def braces : List String → String
  | [] => "\x7b\x7d"
  | parts => "\x7b " ++ " ".intercalate parts ++ " \x7d"

mutual

/-- The printed form of a tree. -/
def Node.display : Node → String
  | .num value => value.toInt.repr
  | .var name => name
  | .arith op left right => bracket op.sign [left.display, right.display]
  | .neg operand => bracket "-" [operand.display]
  | .compare op left right => bracket op.sign [left.display, right.display]
  | .and left right => bracket "and" [left.display, right.display]
  | .or left right => bracket "or" [left.display, right.display]
  | .not operand => bracket "not" [operand.display]
  | .nonzero operand => bracket "bool" [operand.display]
  | .assign target value => bracket "=" [target, value.display]
  | .when condition thenBranch elseBranch =>
      bracket "when" (condition.display :: thenBranch.display :: displayBranch elseBranch)
  | .loop condition body => bracket "loop" [condition.display, body.display]
  | .out value => bracket "out" [value.display]
  | .seq statements => braces (displayAll statements)
termination_by structural node => node

/-- The printed form of a branch that may be missing. -/
def displayBranch : Option Node → List String
  | none => []
  | some node => [node.display]
termination_by structural branch => branch

/-- The printed forms of the statements of a list. -/
def displayAll : List Node → List String
  | [] => []
  | node :: nodes => node.display :: displayAll nodes
termination_by structural nodes => nodes

end

example :
    (Node.seq [.assign "x" (.arith .add (.var "y") (.num 3)),
      .when (.compare .le (.var "x") (.neg (.num 1))) (.out (.var "x")) (some (.seq []))]).display
    = "\x7b (= x (+ y 3)) (when (<= x (- 1)) (out x) \x7b\x7d) \x7d" := by decide +kernel

end WhenLoop
