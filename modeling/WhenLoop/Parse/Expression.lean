import WhenLoop.Node.Basic
import WhenLoop.Parse.State

/-!
# Parsing expressions and conditions

Expressions and conditions share one ladder of precedence.  From loosest to tightest it
has `or`, `and`, `not`, one comparison, `+` and `-`, `*` and `/` and `%`, the negative,
and the primaries.  A chain of operators of one rung groups to the left.  A rung of
comparisons has at most one, so `a < b < c` leaves the second sign behind.

An integer in a condition's place becomes a condition.  A condition in an integer's place
is reported, and stays in the tree.

A group, a `not` and a negative each open a level of nesting.  `Deeper` holds the parsers
of what is inside them, and `deeper levels` builds these for a state in which so many
levels may still be opened.  This number is what the recursion is structural in.  With no
level left the parse is aborted and zero stands for what was not read.

Every operator is counted when it is read.  The one that passes the limit aborts the
parse, and what was read before it stands for the whole.
-/

namespace WhenLoop

/-- A parser reads a node off the front of the upcoming items. -/
abbrev Parser := State → Node × State

namespace Parser

/-- Read inside one more level of nesting. -/
def nested (p : Parser) : Parser := fun s =>
  let (node, s) := p { s with depth := s.depth + 1 }
  (node, { s with depth := s.depth - 1 })

/-- There is no level of nesting left: give up with the given node. -/
def tooDeep (node : Node) : Parser := fun s =>
  (node, s.abort .nestingTooDeep)

/-- Count the operator that was just read and go on, or give up with the given node. -/
def counted (node : Node) (p : Parser) : Parser := fun s =>
  let s := { s with operators := s.operators + 1 }
  if s.operators ≤ maxOperators then p s else (node, s.abort .tooManyOperators)

end Parser

/-- Report a condition that stands in an integer's place, as `problem`. -/
def State.reportCondition (s : State) (problem : Problem) (node : Node) : State :=
  if node.isCondition then s.reportPrevious problem else s

/-! ## Chains of binary operators -/

/-- A rung of binary operators. -/
structure Rung where
  /-- How the operator of a token joins two operands, if the token is one of the rung's. -/
  join? : TokenKind → Option (Node → Node → Node)
  /-- Whether the operands have to be integers. -/
  integers : Bool

namespace Rung

/-- Conditions joined by `or`. -/
def disjunction : Rung where
  join? | .or => some fun left right => .or left.asCondition right.asCondition
        | _ => none
  integers := false

/-- Conditions joined by `and`. -/
def conjunction : Rung where
  join? | .and => some fun left right => .and left.asCondition right.asCondition
        | _ => none
  integers := false

/-- Integers compared.  Here `=` means the same as `==`. -/
def comparison : Rung where
  join? | .equal | .assign => some (.compare .eq)
        | .less => some (.compare .lt)
        | .greater => some (.compare .gt)
        | .lessEqual => some (.compare .le)
        | .greaterEqual => some (.compare .ge)
        | _ => none
  integers := true

/-- Integers added and subtracted. -/
def sum : Rung where
  join? | .plus => some (.arith .add)
        | .minus => some (.arith .sub)
        | _ => none
  integers := true

/-- Integers multiplied and divided. -/
def product : Rung where
  join? | .star => some (.arith .mul)
        | .slash => some (.arith .div)
        | .percent => some (.arith .mod)
        | _ => none
  integers := true

/-- Report an operand that is not what the rung asks for. -/
def checkOperand (rung : Rung) (s : State) (node : Node) : State :=
  if rung.integers then s.reportCondition .conditionForOperand node else s

/-- Go on from a left operand with at most `most` operators and their right operands. -/
def chain (rung : Rung) (operand : Parser) : (most : Nat) → (left : Node) → Parser
  | 0, left => fun s => (left, s)
  | most + 1, left => fun s =>
      match rung.join? s.current.kind with
      | none => (left, s)
      | some join =>
          Parser.counted left
            (fun s =>
              let (right, s) := operand (rung.checkOperand s left)
              chain rung operand most (join left right) (rung.checkOperand s right))
            s.advance
termination_by structural most => most

/-- Operands with operators between them, grouped to the left.  The parse is given up at
the first operator past the limit, so no chain gets longer than that. -/
def many (rung : Rung) (operand : Parser) : Parser := fun s =>
  let (left, s) := operand s
  rung.chain operand (maxOperators + 1) left s

/-- One operand, or two with an operator between them. -/
def once (rung : Rung) (operand : Parser) : Parser := fun s =>
  let (left, s) := operand s
  rung.chain operand 1 left s

end Rung

/-! ## The ladder -/

/-- The integer of a literal, unless it is greater than the greatest one. -/
def literal? (digits : List Char) : Option Int32 :=
  let value := Nat.ofDigitChars 10 digits 0
  if value ≤ Int32.maxValue.toNatClampNeg then some (Int32.ofNat value) else none

/-- The parsers of what is inside one more level of nesting. -/
structure Deeper where
  /-- What a group holds, and what a whole expression or condition is. -/
  group : Parser
  /-- A `not` that was just read and its operand. -/
  negation : Parser
  /-- A sign that was just read and its operand. -/
  negative : Parser

namespace Deeper

/-- A number, a name or a group. -/
def primary (d : Deeper) : Parser := fun s =>
  match s.current.kind with
  | .number =>
      match literal? s.current.text.toList with
      | some value => (.num value, s.advance)
      | none => (.num 0, s.advance.reportPrevious .literalTooLarge)
  | .name => (.var s.current.text, s.advance)
  | .openParen =>
      let (node, s) := d.group s.advance
      (node, s.expect .closeParen .expectedGroupEnd)
  | _ => (.num 0, s.advance.reportPrevious .expectedExpression)

/-- A primary with any number of signs before it. -/
def signed (d : Deeper) : Parser := fun s =>
  if s.current.kind = .minus then d.negative.counted (.num 0) s.advance else d.primary s

/-- A comparison, or what stands on one side of it. -/
def comparison (d : Deeper) : Parser :=
  Rung.comparison.once (Rung.sum.many (Rung.product.many d.signed))

/-- A comparison with any number of `not` before it. -/
def negated (d : Deeper) : Parser := fun s =>
  if s.current.kind = .not then d.negation.counted (.num 0) s.advance else d.comparison s

/-- The whole ladder. -/
def ladder (d : Deeper) : Parser :=
  Rung.disjunction.many (Rung.conjunction.many d.negated)

/-- With no level of nesting left the parse gives up. -/
def exhausted : Deeper where
  group := .tooDeep (.num 0)
  negation := .tooDeep (.num 0)
  negative := .tooDeep (.num 0)

/-- With one more level than `d` has left, the ladder of `d` can be read inside it. -/
def next (d : Deeper) : Deeper where
  group := Parser.nested d.ladder
  negation := fun s =>
    let (operand, s) := Parser.nested d.negated s
    (.not operand.asCondition, s)
  negative := fun s =>
    let (operand, s) := Parser.nested d.signed s
    (.neg operand, s.reportCondition .conditionForOperand operand)

end Deeper

/-- The parsers of what is inside one more level of nesting, when `levels` more levels
may be opened. -/
def deeper : (levels : Nat) → Deeper
  | 0 => .exhausted
  | levels + 1 => (deeper levels).next
termination_by structural levels => levels

/-- A whole expression.  A condition is reported. -/
def expression (levels : Nat) : Parser := fun s =>
  let (node, s) := (deeper levels).group { s with operators := 0 }
  (node, s.reportCondition .conditionForExpression node)

/-- A whole condition.  An integer becomes one. -/
def condition (levels : Nat) : Parser := fun s =>
  let (node, s) := (deeper levels).group { s with operators := 0 }
  (node.asCondition, s)

end WhenLoop
