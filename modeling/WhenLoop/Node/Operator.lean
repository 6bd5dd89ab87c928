/-!
# Operators

Integers are 32-bit words in two's complement.  Addition, subtraction and multiplication
wrap.  Division truncates toward zero, and a remainder has the sign of the dividend.  A
zero divisor has no quotient and no remainder.  The one quotient that does not fit, of
the least integer by `-1`, wraps to the least integer, with remainder zero.
-/

namespace WhenLoop

/-- An operator from two integers to an integer. -/
inductive ArithOp where
  | add | sub | mul | div | mod
deriving DecidableEq, Repr, Inhabited

namespace ArithOp

/-- The sign of the operator. -/
def sign : ArithOp → String
  | add => "+"
  | sub => "-"
  | mul => "*"
  | div => "/"
  | mod => "%"

/-- The value of the operator, or nothing for a zero divisor. -/
def value? : ArithOp → Int32 → Int32 → Option Int32
  | add, a, b => some (a + b)
  | sub, a, b => some (a - b)
  | mul, a, b => some (a * b)
  | div, a, b => if b = 0 then none else some (a / b)
  | mod, a, b => if b = 0 then none else some (a % b)

end ArithOp

/-- An operator from two integers to a truth value. -/
inductive CompareOp where
  | eq | lt | gt | le | ge
deriving DecidableEq, Repr, Inhabited

namespace CompareOp

/-- The sign of the operator. -/
def sign : CompareOp → String
  | eq => "="
  | lt => "<"
  | gt => ">"
  | le => "<="
  | ge => ">="

/-- Whether the two integers compare so. -/
def holds : CompareOp → Int32 → Int32 → Bool
  | eq, a, b => a = b
  | lt, a, b => a < b
  | gt, a, b => b < a
  | le, a, b => a ≤ b
  | ge, a, b => b ≤ a

end CompareOp

example : ArithOp.div.value? (-7) 2 = some (-3) ∧ ArithOp.mod.value? (-7) 2 = some (-1) := by
  decide
example : ArithOp.div.value? Int32.minValue (-1) = some Int32.minValue := by decide
example : ArithOp.mod.value? Int32.minValue (-1) = some 0 := by decide

end WhenLoop
