import Mathlib.Data.Int.ModEq
import Mathlib.Data.Rat.Floor
import WhenLoop.Proofs.EvaluationOrder

/-!
# Expressions and the integers

The values of a program are words of 32 bits.  An expression also has an exact value, in the
integers, if the names stand for integers.  The two are compared here.

To wrap an integer to a word (`Int32.ofInt`) keeps sums, differences, products and negatives.  So
an expression that is built from these alone wraps once, however often it wraps on the way: its
value is the one word that is congruent to the exact value (`Node.evaluate_congruent`).

Division is not kept.  A quotient is that of the exact values of the operands' words, and not of
the operands themselves.  It is truncated toward zero, and the remainder is what is missing
(`Node.division_laws`).  One quotient does not fit a word.
-/

namespace WhenLoop

/-! ## Words -/

/-- The integer of a wrapped integer is the one congruent to it among those that fit. -/
theorem toInt_ofInt_eq_iff (i w : Int) :
    (Int32.ofInt i).toInt = w ↔ -2147483648 ≤ w ∧ w ≤ 2147483647 ∧ w ≡ i [ZMOD 2 ^ 32] := by
  rw [Int32.toInt_ofInt, Int.bmod_def, Int.ModEq, Int32.size]
  split <;> omega

/-- A rational number rounded toward zero. -/
def truncated (x : ℚ) : ℤ := if 0 ≤ x then ⌊x⌋ else ⌈x⌉

/-- For a divisor that is not negative, truncation rounds towards zero from either side. -/
theorem truncated_div_natCast (l : ℤ) (d : ℕ) : truncated ((l : ℚ) / d) = l.tdiv d := by
  rw [truncated]
  rcases le_or_gt 0 l with nonneg | neg
  · rw [if_pos (by positivity), Rat.floor_intCast_div_natCast, Int.tdiv_eq_ediv_of_nonneg nonneg]
  · rcases Nat.eq_zero_or_pos d with rfl | pos
    · simp
    · have below : (l : ℚ) / d < 0 :=
        div_neg_of_neg_of_pos (Int.cast_lt_zero.mpr neg) (Nat.cast_pos.mpr pos)
      have flipped : (-l) / (d : ℤ) = (-l).tdiv d :=
        (Int.tdiv_eq_ediv_of_nonneg (Int.neg_nonneg_of_nonpos neg.le)).symm
      rw [if_neg (not_le.mpr below), Rat.ceil_intCast_div_natCast, flipped, Int.neg_tdiv, neg_neg]

/-- Division of integers that truncates is the exact quotient rounded toward zero. -/
theorem truncated_div (l r : ℤ) : truncated ((l : ℚ) / (r : ℚ)) = l.tdiv r := by
  obtain ⟨d, rfl | rfl⟩ := r.eq_nat_or_neg
  · exact truncated_div_natCast l d
  · have flipped : (l : ℚ) / ((-(d : ℤ) : ℤ) : ℚ) = ((-l : ℤ) : ℚ) / d := by
      push_cast
      rw [div_neg, neg_div]
    rw [flipped, truncated_div_natCast, Int.tdiv_neg, Int.neg_tdiv]

/-- A remainder is smaller than its divisor, signs aside. -/
theorem abs_remainder_lt (l : Int32) {r : Int32} (nonzero : r ≠ 0) :
    |(l % r).toInt| < |r.toInt| := by
  have nonzero' : r.toInt ≠ 0 := fun zero => nonzero (Int32.toInt_inj.mp zero)
  rw [Int32.toInt_mod, Int.abs_eq_natAbs, Int.abs_eq_natAbs, Int.natAbs_tmod, Int.ofNat_lt]
  exact Nat.mod_lt _ (Int.natAbs_pos.mpr nonzero')

/-- A remainder has the sign of the dividend. -/
theorem sign_remainder (l r : Int32) :
    (l % r).toInt = 0 ∨ (l % r).toInt.sign = l.toInt.sign := by
  rw [Int32.toInt_mod, ← Int.dvd_iff_tmod_eq_zero, Int.sign_tmod]
  by_cases divides : r.toInt ∣ l.toInt
  · exact .inl divides
  · exact .inr (if_neg divides)

/-- The quotient is truncated unless it does not fit. -/
theorem toInt_quotient {l r : Int32} (fits : ¬(l.toInt = -2147483648 ∧ r.toInt = -1)) :
    (l / r).toInt = l.toInt.tdiv r.toInt := by
  by_cases least : l = Int32.minValue
  · refine Int32.toInt_div_of_ne_right l r ?_
    rintro rfl
    exact fits ⟨least ▸ Int32.toInt_minValue, rfl⟩
  · exact Int32.toInt_div_of_ne_left l r least

namespace Node

/-! ## Expressions without division -/

/-- An expression that is built from numbers and variables by sums, differences, products and
negatives. -/
inductive IsPolynomial : Node → Prop where
  | num {value : Int32} : IsPolynomial (.num value)
  | var {name : String} : IsPolynomial (.var name)
  | add {left right : Node} :
      IsPolynomial left → IsPolynomial right → IsPolynomial (.arith .add left right)
  | sub {left right : Node} :
      IsPolynomial left → IsPolynomial right → IsPolynomial (.arith .sub left right)
  | mul {left right : Node} :
      IsPolynomial left → IsPolynomial right → IsPolynomial (.arith .mul left right)
  | neg {operand : Node} : IsPolynomial operand → IsPolynomial (.neg operand)

/-- The value in the integers of an expression without division, when the names stand for the
given integers. -/
def exact (values : String → Int) : Node → Int
  | num value => value.toInt
  | var name => values name
  | arith .add left right => left.exact values + right.exact values
  | arith .sub left right => left.exact values - right.exact values
  | arith .mul left right => left.exact values * right.exact values
  | neg operand => -operand.exact values
  | _ => 0
termination_by structural node => node

namespace IsPolynomial

variable {node : Node}

/-- The value of the words is the wrapped value of the integers. -/
theorem value_eq (h : node.IsPolynomial) (values : String → Int32) :
    node.value values = Int32.ofInt (node.exact fun name => (values name).toInt) := by
  induction h with
  | num => rw [value, exact, Int32.ofInt_toInt]
  | var => rw [value, exact, Int32.ofInt_toInt]
  | add _ _ ihl ihr =>
      rw [value, exact, ArithOp.exact, Int32.ofInt_add, Int32.ofInt_add, ← ihl, ← ihr,
        Int32.ofInt_toInt, Int32.ofInt_toInt]
  | sub _ _ ihl ihr =>
      rw [value, exact, ArithOp.exact, Int32.ofInt_sub, Int32.ofInt_sub, ← ihl, ← ihr,
        Int32.ofInt_toInt, Int32.ofInt_toInt]
  | mul _ _ ihl ihr =>
      rw [value, exact, ArithOp.exact, Int32.ofInt_mul, Int32.ofInt_mul, ← ihl, ← ihr,
        Int32.ofInt_toInt, Int32.ofInt_toInt]
  | neg _ ih => rw [value, exact, Int32.ofInt_neg, Int32.ofInt_neg, ← ih, Int32.ofInt_toInt]

/-- Without division nothing fails. -/
theorem firstFault_eq_none (h : node.IsPolynomial) (values : String → Int32) :
    firstFault values (node.visits .expression) = none := by
  induction h with
  | num => rfl
  | var => rfl
  | add _ _ ihl ihr => rw [visits, firstFault_append, ihl, firstFault_append, ihr]; rfl
  | sub _ _ ihl ihr => rw [visits, firstFault_append, ihl, firstFault_append, ihr]; rfl
  | mul _ _ ihl ihr => rw [visits, firstFault_append, ihl, firstFault_append, ihr]; rfl
  | neg _ ih => rw [visits, firstFault_append, ih]; rfl

end IsPolynomial

/-- An expression without division has a value on every store.  It is the one integer that fits a
word and is congruent to the exact value of the expression, at the values of the names in the
store. -/
theorem evaluate_congruent {node : Node} (h : node.IsPolynomial) (s : Store) :
    ∃ v : Int32, (evaluateOptional (some node) s).1 = .ok v ∧
      ∀ w : Int, v.toInt = w ↔ -2147483648 ≤ w ∧ w ≤ 2147483647 ∧
        w ≡ node.exact (fun name => (s.value name).toInt) [ZMOD 2 ^ 32] := by
  refine ⟨node.value s.value, ?_, fun w => ?_⟩
  · have result := (node.evaluate_follows s.value).result rfl
    rw [outcome, h.firstFault_eq_none] at result
    exact result
  · rw [h.value_eq]
    exact toInt_ofInt_eq_iff _ w

/-- The negative of the least integer wraps to it. -/
theorem evaluate_congruent_least :
    let node : Node := .neg (.arith .sub (.neg (.num 2147483647)) (.num 1))
    node.IsPolynomial ∧ (evaluateOptional (some node) .empty).1 = .ok (-2147483648) ∧
      (-2147483648 : Int) ≡ node.exact (fun _ => 0) [ZMOD 2 ^ 32] := by
  intro node
  have polynomial : node.IsPolynomial := .neg (.sub (.neg .num) .num)
  obtain ⟨v, result, unique⟩ := evaluate_congruent polynomial .empty
  obtain rfl : -2147483648 = v := Except.ok.inj result
  exact ⟨polynomial, rfl, ((unique (-2147483648)).mp rfl).2.2⟩

/-! ## Division -/

/-- Operands that have values, the left one first, give the value of the operator. -/
theorem evaluate_arith {a b : Node} {s : Store} {l r : Int32} (op : ArithOp)
    (left : (a.evaluate s).1 = .ok l) (right : (b.evaluate (a.evaluate s).2).1 = .ok r) :
    ((Node.arith op a b).evaluate s).1 = op.apply l r := by
  rw [evaluate, Evaluation.both_of_ok left, Evaluation.andThen_eq, right]
  rfl

/-- Two operands are evaluated in turn and have values.  If the second is zero then division and
remainder both fail.  If not then both have a value.  The remainder is less than the divisor, and
it is zero or has the sign of the dividend.  The quotient is the exact one rounded toward zero,
and with the remainder it makes up the dividend.  The quotient of the least integer by `-1` is
the exception: it does not fit and wraps to the least integer, with remainder zero. -/
theorem division_laws {a b : Node} {s : Store} {l r : Int32}
    (left : (evaluateOptional (some a) s).1 = .ok l)
    (right : (evaluateOptional (some b) (evaluateOptional (some a) s).2).1 = .ok r) :
    (r = 0 →
      (evaluateOptional (some (.arith .div a b)) s).1 = .error .divisionByZero ∧
      (evaluateOptional (some (.arith .mod a b)) s).1 = .error .divisionByZero) ∧
    (r ≠ 0 → ∃ q m : Int32,
      (evaluateOptional (some (.arith .div a b)) s).1 = .ok q ∧
      (evaluateOptional (some (.arith .mod a b)) s).1 = .ok m ∧
      |m.toInt| < |r.toInt| ∧ (m.toInt = 0 ∨ m.toInt.sign = l.toInt.sign) ∧
      if l.toInt = -2147483648 ∧ r.toInt = -1 then
        q.toInt = -2147483648 ∧ m.toInt = 0 ∧ l.toInt ≡ q.toInt * r.toInt + m.toInt [ZMOD 2 ^ 32]
      else
        l.toInt = q.toInt * r.toInt + m.toInt ∧
          q.toInt = truncated ((l.toInt : ℚ) / (r.toInt : ℚ))) := by
  have quotient := evaluate_arith .div left right
  have remainder := evaluate_arith .mod left right
  refine ⟨fun zero => ?_, fun nonzero => ⟨l / r, l % r, ?_, ?_, ?_, ?_, ?_⟩⟩
  · subst zero
    exact ⟨quotient, remainder⟩
  · refine quotient.trans ?_
    simp [ArithOp.apply, ArithOp.value?, nonzero]
  · refine remainder.trans ?_
    simp [ArithOp.apply, ArithOp.value?, nonzero]
  · exact abs_remainder_lt l nonzero
  · exact sign_remainder l r
  · split
    · rename_i exception
      obtain rfl : l = Int32.minValue := Int32.toInt_inj.mp exception.1
      obtain rfl : r = -1 := Int32.toInt_inj.mp exception.2
      exact ⟨rfl, rfl, rfl⟩
    · rename_i fits
      rw [toInt_quotient fits, truncated_div, Int32.toInt_mod]
      exact ⟨(Int.tdiv_mul_add_tmod l.toInt r.toInt).symm, rfl⟩

/-- The quotient of the least integer by `-1`, and a remainder of a zero divisor. -/
theorem division_laws_least :
    (∃ q m : Int32,
      (evaluateOptional (some (.arith .div (.num (-2147483648)) (.var "x")))
        (Store.empty.write "x" (-1))).1 = .ok q ∧
      (evaluateOptional (some (.arith .mod (.num (-2147483648)) (.var "x")))
        (Store.empty.write "x" (-1))).1 = .ok m ∧
      q.toInt = -2147483648 ∧ m.toInt = 0) ∧
    (evaluateOptional (some (.arith .mod (.num 7) (.num 0))) .empty).1
      = .error .divisionByZero := by
  have least := (division_laws (a := .num (-2147483648)) (b := .var "x")
    (s := Store.empty.write "x" (-1)) rfl rfl).2 (by decide)
  have zero := (division_laws (a := .num 7) (b := .num 0) (s := .empty) rfl rfl).1 rfl
  obtain ⟨q, m, quotient, remainder, -, -, value⟩ := least
  rw [if_pos ⟨rfl, rfl⟩] at value
  exact ⟨⟨q, m, quotient, remainder, value.1, value.2.1⟩, zero.2⟩

end Node

end WhenLoop
