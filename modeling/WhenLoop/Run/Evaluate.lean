import WhenLoop.Run.Failure
import WhenLoop.Run.Store

/-!
# Evaluation

An expression has an integer as its value and a condition has a truth value.  Operands
are evaluated from left to right, and both always are: `and` and `or` do not stop at the
first operand.  The first failure ends the evaluation, and the bindings that reads added
before it stay.

A zero divisor is found only after both operands have their values.
-/

namespace WhenLoop

/-- What evaluation does with a store: give a value or fail, and leave a store. -/
abbrev Evaluation (α : Type) := Store → Except Failure α × Store

namespace Evaluation

variable {α β : Type}

/-- Evaluate, and go on with the value. -/
def andThen (first : Evaluation α) (next : α → Except Failure β) : Evaluation β := fun s =>
  match first s with
  | (.error failure, s) => (.error failure, s)
  | (.ok a, s) => (next a, s)

/-- Evaluate two operands, the left one first, and join their values. -/
def both (left right : Evaluation α) (join : α → α → Except Failure β) : Evaluation β := fun s =>
  match left s with
  | (.error failure, s) => (.error failure, s)
  | (.ok a, s) => right.andThen (join a) s

end Evaluation

/-- The value of an operator.  A zero divisor fails. -/
def ArithOp.apply (op : ArithOp) (a b : Int32) : Except Failure Int32 :=
  match op.value? a b with
  | some value => .ok value
  | none => .error .divisionByZero

namespace Node

/-- The value of an expression. -/
def evaluate : Node → Evaluation Int32
  | num value => fun s => (.ok value, s)
  | var name => fun s =>
      let (value, s) := s.read name
      (.ok value, s)
  | arith op left right => left.evaluate.both right.evaluate op.apply
  | neg operand => operand.evaluate.andThen fun a => .ok (-a)
  | node => fun s => (.error (.notExpression node.kind), s)
termination_by structural node => node

/-- Whether a condition holds. -/
def test : Node → Evaluation Bool
  | compare op left right => left.evaluate.both right.evaluate fun a b => .ok (op.holds a b)
  | and left right => left.test.both right.test fun a b => .ok (a && b)
  | or left right => left.test.both right.test fun a b => .ok (a || b)
  | not operand => operand.test.andThen fun a => .ok (!a)
  | nonzero operand => operand.evaluate.andThen fun a => .ok (a != 0)
  | node => fun s => (.error (.notCondition node.kind), s)
termination_by structural node => node

end Node

/-- The value of an expression that may be missing.  A missing one is zero. -/
def evaluateOptional : Option Node → Evaluation Int32
  | none => fun s => (.ok 0, s)
  | some node => node.evaluate

/-- Whether a condition holds that may be missing.  A missing one does not. -/
def testOptional : Option Node → Evaluation Bool
  | none => fun s => (.ok false, s)
  | some node => node.test

end WhenLoop
