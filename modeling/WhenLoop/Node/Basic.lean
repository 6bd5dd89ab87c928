import WhenLoop.Node.Operator

/-!
# Trees

One type of trees holds expressions, conditions and statements.  Nothing in it keeps a
statement out of an expression's place.  A tree read from a program without errors never
has one there, but a tree may also be built by hand, and then running it fails at the
node that is out of place, with the node's `NodeKind` in the message.

`asCondition` is the one bridge between expressions and conditions: an integer counts as
true when it is not zero.  There is no bridge back.
-/

namespace WhenLoop

/-- A piece of a program. -/
inductive Node where
  /-- An integer. -/
  | num (value : Int32)
  /-- The value of a variable. -/
  | var (name : String)
  /-- An operator on two integers. -/
  | arith (op : ArithOp) (left right : Node)
  /-- The negative of an integer. -/
  | neg (operand : Node)
  /-- A comparison of two integers. -/
  | compare (op : CompareOp) (left right : Node)
  /-- Both conditions hold. -/
  | and (left right : Node)
  /-- At least one of the conditions holds. -/
  | or (left right : Node)
  /-- The condition does not hold. -/
  | not (operand : Node)
  /-- The integer is not zero. -/
  | nonzero (operand : Node)
  /-- Give a variable a value. -/
  | assign (target : String) (value : Node)
  /-- Run one of two branches.  The second may be missing. -/
  | when (condition thenBranch : Node) (elseBranch : Option Node)
  /-- Run the body as long as the condition holds. -/
  | loop (condition body : Node)
  /-- Write an integer to the output. -/
  | out (value : Node)
  /-- Run statements one after the other. -/
  | seq (statements : List Node)
deriving Repr, Inhabited

/-- What a node is, without what is in it. -/
inductive NodeKind where
  | num | var
  | arith (op : ArithOp)
  | neg
  | compare (op : CompareOp)
  | and | or | not | nonzero
  | assign | when | loop | out | seq
deriving DecidableEq, Repr, Inhabited

/-- The kind in words.  An operator is named by its sign in quotes. -/
def NodeKind.describe : NodeKind → String
  | num => "number"
  | var => "variable"
  | arith op => "'" ++ op.sign ++ "'"
  | neg => "negation"
  | compare op => "'" ++ op.sign ++ "'"
  | and => "and"
  | or => "or"
  | not => "not"
  | nonzero => "boolean coercion"
  | assign => "assignment"
  | when => "when"
  | loop => "loop"
  | out => "out"
  | seq => "statement list"

namespace Node

/-- The kind of a node. -/
def kind : Node → NodeKind
  | num _ => .num
  | var _ => .var
  | arith op _ _ => .arith op
  | neg _ => .neg
  | compare op _ _ => .compare op
  | and _ _ => .and
  | or _ _ => .or
  | not _ => .not
  | nonzero _ => .nonzero
  | assign _ _ => .assign
  | when _ _ _ => .when
  | loop _ _ => .loop
  | out _ => .out
  | seq _ => .seq

/-- Whether the node is a condition. -/
def isCondition : Node → Bool
  | compare _ _ _ | and _ _ | or _ _ | not _ | nonzero _ => true
  | _ => false

/-- A node for a condition's place: an integer counts as true when it is not zero. -/
def asCondition (node : Node) : Node :=
  if node.isCondition then node else nonzero node

/-- What stands in a condition's place is a condition. -/
@[simp]
theorem isCondition_asCondition (node : Node) : node.asCondition.isCondition = true := by
  rw [asCondition]
  split
  · assumption
  · rfl

end Node

end WhenLoop
