import WhenLoop.Parse.Expression
import WhenLoop.Proofs.Lexical

/-!
# Where an operand is asked for

Words that are to be an expression are read from left to right, whether they are one or not.
Between two words either an operand is asked for, or one was read and an operator may follow it.
Which of the two it is follows from the kinds of the words before, and `Progress.read` says how.

A word that is no operand is taken for one where an operand is asked for.  Where an operator may
follow, a word that is none ends all that is open: the expression is over, and nothing is asked
for any more.  A comparison takes one sign only, so another one closes the groups in which there
was a comparison already, up to one in which there was none.

So it can be told from the words alone whether an operand is asked for behind them
(`asksBehind`).
-/

namespace WhenLoop

/-- Where the reading of an expression stands between two words.  `groups` are the open groups,
from the inside to the whole expression, and whether each of them has its comparison. -/
inductive Progress where
  /-- An operand is asked for.  A `not` may come before it if it is `negatable`. -/
  | operand (negatable : Bool) (groups : List Bool)
  /-- An operand was read.  With no group left the expression is over. -/
  | operator (groups : List Bool)
deriving DecidableEq, Repr

/-- The words without the first one if that is of the given kind. -/
def passing (kind : TokenKind) : List Word → List Word
  | [] => []
  | w :: us => if w.kind = kind then us else w :: us

theorem length_passing_le (kind : TokenKind) (us : List Word) :
    (passing kind us).length ≤ us.length := by
  cases us with
  | nil => exact Nat.le_refl _
  | cons w us =>
      rw [passing]
      split
      · exact Nat.le_succ _
      · exact Nat.le_refl _

namespace Progress

/-- Behind the sign of a comparison. -/
def compare (groups : List Bool) : Progress :=
  match groups.dropWhile id with
  | [] => operator []
  | _ :: outer => operand false (true :: outer)

/-- Behind one more word. -/
def read (kind : TokenKind) : Progress → Progress
  | operand negatable groups =>
      match kind with
      | .openParen => operand true (false :: groups)
      | .minus => operand false groups
      | .not => if negatable then operand true groups else operator groups
      | _ => operator groups
  | operator [] => operator []
  | operator (compared :: outer) =>
      match kind with
      | .star | .slash | .percent | .plus | .minus => operand false (compared :: outer)
      | .equal | .assign | .less | .greater | .lessEqual | .greaterEqual =>
          compare (compared :: outer)
      | .and | .or => operand true (false :: outer)
      | .closeParen => operator outer
      | _ => operator []

/-- Whether an operand is asked for here. -/
def isOperand : Progress → Bool
  | operand _ _ => true
  | operator _ => false

/-- Whether an operand is asked for behind the words. -/
def asks (progress : Progress) : List Word → Bool
  | [] => progress.isOperand
  | w :: us => (progress.read w.kind).asks us

/-- Before the first word of an expression. -/
def start : Progress := operand true [false]

/-! ## What is asked for -/

variable {negatable compared : Bool} {groups outer : List Bool} {kind : TokenKind} {us : List Word}

/-- Where an operand is asked for before the end of the words there is a word. -/
theorem exists_cons_of_asks (h : (operand negatable groups).asks us = false) :
    ∃ v vs, us = v :: vs := by
  cases us with
  | nil => cases h
  | cons v vs => exact ⟨v, vs, rfl⟩

/-- Only a `not` shows whether one may stand here. -/
theorem read_operand_of_ne (other : kind ≠ .not) :
    (operand negatable groups).read kind = (operand false groups).read kind := by
  cases kind with
  | not => exact absurd rfl other
  | _ => rfl

/-- What neither opens a group nor is a sign is taken for an operand. -/
theorem read_operand_of_other (group : kind ≠ .openParen) (sign : kind ≠ .minus) :
    (operand false groups).read kind = operator groups := by
  cases kind with
  | openParen => exact absurd rfl group
  | minus => exact absurd rfl sign
  | _ => rfl

/-- Behind a word that can be the last of an operand no operand is asked for. -/
theorem asks_concat (progress : Progress) (us : List Word) {last : Word}
    (ends : last.kind ∈ [.semicolon, .name, .number, .closeParen]) :
    progress.asks (us ++ [last]) = false := by
  induction us generalizing progress with
  | nil =>
      simp only [List.mem_cons, List.not_mem_nil, or_false] at ends
      rcases progress with ⟨negatable, groups⟩ | _ | ⟨compared, outer⟩ <;>
        rcases ends with kind | kind | kind | kind <;> simp [asks, isOperand, read, kind]
  | cons w us ih => exact ih (progress.read w.kind)

/-! ## Operators -/

/-- No operator of these rungs is the first of the words. -/
def Unjoined (rungs : List Rung) (us : List Word) : Prop :=
  ∀ w ∈ us.head?, ∀ rung ∈ rungs, rung.join? w.kind = none

theorem unjoined_nil (us : List Word) : Unjoined [] us :=
  fun _ _ _ mem => nomatch mem

theorem Unjoined.cons {rung : Rung} {rungs : List Rung} (h : Unjoined rungs us)
    (first : ∀ w ∈ us.head?, rung.join? w.kind = none) : Unjoined (rung :: rungs) us :=
  fun w mem => List.forall_mem_cons.mpr ⟨first w mem, h w mem⟩

variable {join : Node → Node → Node}

theorem read_sum (h : Rung.sum.join? kind = some join) :
    (operator (compared :: outer)).read kind = operand false (compared :: outer) := by
  cases kind <;> first | rfl | cases h

theorem read_product (h : Rung.product.join? kind = some join) :
    (operator (compared :: outer)).read kind = operand false (compared :: outer) := by
  cases kind <;> first | rfl | cases h

theorem read_comparison (h : Rung.comparison.join? kind = some join) :
    (operator (false :: outer)).read kind = operand false (true :: outer) := by
  cases kind <;> first | rfl | cases h

theorem read_conjunction (h : Rung.conjunction.join? kind = some join) :
    (operator (compared :: outer)).read kind = operand true (false :: outer) := by
  cases kind <;> first | rfl | cases h

theorem read_disjunction (h : Rung.disjunction.join? kind = some join) :
    (operator (compared :: outer)).read kind = operand true (false :: outer) := by
  cases kind <;> first | rfl | cases h

/-- Where no comparison goes on, it does not matter whether there was one. -/
theorem read_compared (comparison : Rung.comparison.join? kind = none)
    (sum : Rung.sum.join? kind = none) (product : Rung.product.join? kind = none) :
    (operator (true :: outer)).read kind = (operator (false :: outer)).read kind := by
  cases kind <;> simp_all [read, Rung.comparison, Rung.sum, Rung.product]

/-- A group that no operator goes on with is closed by every word. -/
theorem read_leave (disjunction : Rung.disjunction.join? kind = none)
    (conjunction : Rung.conjunction.join? kind = none) (sum : Rung.sum.join? kind = none)
    (product : Rung.product.join? kind = none) (other : kind ≠ .closeParen) :
    (operator groups).read kind = (operator (true :: groups)).read kind := by
  cases groups <;> cases kind <;>
    simp_all [read, compare, Rung.disjunction, Rung.conjunction, Rung.sum, Rung.product]

/-- If no comparison comes next, it does not matter whether one was read before. -/
theorem asks_compared (h : (operator (false :: outer)).asks us = false)
    (unjoined : Unjoined [.comparison, .sum, .product] us) :
    (operator (true :: outer)).asks us = false := by
  cases us with
  | nil => rfl
  | cons w us =>
      have none := unjoined w rfl
      simp only [List.forall_mem_cons] at none
      obtain ⟨comparison, sum, product, -⟩ := none
      rw [asks, read_compared comparison sum product]
      exact h

/-- If no operator comes next either, the phrase is over.  The words go on behind the parenthesis
that closes its group, in whatever holds the group. -/
theorem asks_leave (h : (operator (true :: groups)).asks us = false)
    (unjoined : Unjoined [.disjunction, .conjunction, .sum, .product] us) :
    (operator groups).asks (passing .closeParen us) = false := by
  cases us with
  | nil => rfl
  | cons w us =>
      have none := unjoined w rfl
      simp only [List.forall_mem_cons] at none
      obtain ⟨disjunction, conjunction, sum, product, -⟩ := none
      rw [passing]
      split
      · rename_i closes
        rwa [asks, closes] at h
      · rename_i other
        rw [asks, read_leave disjunction conjunction sum product other]
        exact h

end Progress

/-- Whether an operand is asked for behind the words of a statement, of which the first is of the
given kind.  The name of an assignment is followed by its sign, if it is there. -/
def asksBehind (first : TokenKind) (us : List Word) : Bool :=
  Progress.start.asks (if first = .name then passing .assign us else us)

end WhenLoop
