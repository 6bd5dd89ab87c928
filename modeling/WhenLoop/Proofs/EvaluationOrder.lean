import WhenLoop.Proofs.Execution

/-!
# The order of evaluation

An evaluation visits the nodes of a tree from left to right, each one behind its operands
(`Node.visits`).  It does not look into a node that is out of place.  A visited node can be a
fault: it is out of place, or it divides and its divisor is zero.  The first fault in this order
is what the evaluation fails with, and without a fault it gives the value of the tree
(`Node.value`, `Node.truth`).

The value and the faults are told from the values of the names alone, without a store that
changes on the way.  They are the same wherever in the evaluation they are looked at, because
a read that binds a name leaves its value as it is.  They are told in the integers: an operator
gives its exact result (`ArithOp.exact`), wrapped to a word, and a comparison holds by the order
of the integers (`CompareOp.relates`).

What an evaluation leaves in the store is said by the same order: a binding to zero for every
name that was visited before the first fault and was not bound (`Store.Binds`).
-/

namespace WhenLoop

/-! ## Values -/

namespace ArithOp

/-- Whether the right operand is a divisor. -/
def divides : ArithOp → Bool
  | add | sub | mul => false
  | div | mod => true

/-- What the operator gives for integers.  A quotient is truncated toward zero, and a remainder is
what is missing to the dividend. -/
def exact : ArithOp → Int → Int → Int
  | add, i, j => i + j
  | sub, i, j => i - j
  | mul, i, j => i * j
  | div, i, j => i.tdiv j
  | mod, i, j => i.tmod j

/-- An operator has no value exactly for a zero divisor. -/
theorem value?_eq_none_iff {op : ArithOp} {a b : Int32} :
    op.value? a b = none ↔ op.divides = true ∧ b = 0 := by
  cases op <;> simp [value?, divides]

/-- The value of an operator is the word of what it gives for the integers. -/
theorem value?_eq_some {op : ArithOp} {a b v : Int32} (h : op.value? a b = some v) :
    v = Int32.ofInt (op.exact a.toInt b.toInt) := by
  cases op with
  | add => rw [exact, Int32.ofInt_add, Int32.ofInt_toInt, Int32.ofInt_toInt, Option.some.inj h]
  | sub => rw [exact, Int32.ofInt_sub, Int32.ofInt_toInt, Int32.ofInt_toInt, Option.some.inj h]
  | mul => rw [exact, Int32.ofInt_mul, Int32.ofInt_toInt, Int32.ofInt_toInt, Option.some.inj h]
  | div =>
      obtain ⟨-, ⟨⟩⟩ := Option.ite_none_left_eq_some.mp h
      rw [exact, ← Int32.toInt_inj, Int32.toInt_div, Int32.toInt_ofInt]
  | mod =>
      obtain ⟨-, ⟨⟩⟩ := Option.ite_none_left_eq_some.mp h
      rw [exact, ← Int32.toInt_mod, Int32.ofInt_toInt]

end ArithOp

namespace CompareOp

/-- Whether two integers compare so. -/
def relates : CompareOp → Int → Int → Bool
  | eq, i, j => i = j
  | lt, i, j => i < j
  | gt, i, j => i > j
  | le, i, j => i ≤ j
  | ge, i, j => i ≥ j

/-- Words compare like their integers. -/
theorem holds_eq (op : CompareOp) (a b : Int32) : op.holds a b = op.relates a.toInt b.toInt := by
  cases op with
  | eq => exact decide_eq_decide.mpr Int32.toInt_inj.symm
  | lt => exact decide_eq_decide.mpr Int32.lt_iff_toInt_lt
  | gt => exact decide_eq_decide.mpr Int32.lt_iff_toInt_lt
  | le => exact decide_eq_decide.mpr Int32.le_iff_toInt_le
  | ge => exact decide_eq_decide.mpr Int32.le_iff_toInt_le

end CompareOp

/-- A word is zero exactly if its integer is. -/
theorem nonzero_eq (a : Int32) : (a != 0) = (a.toInt != 0) := by
  rw [Bool.eq_iff_iff, bne_iff_ne, bne_iff_ne, ne_eq, ← Int32.toInt_inj]
  rfl

namespace Node

/-- The value of an expression without faults, when the names have the given values. -/
def value (values : String → Int32) : Node → Int32
  | num value => value
  | var name => values name
  | arith op left right =>
      .ofInt (op.exact (left.value values).toInt (right.value values).toInt)
  | neg operand => .ofInt (-(operand.value values).toInt)
  | _ => 0
termination_by structural node => node

/-- Whether a condition without faults holds, when the names have the given values. -/
def truth (values : String → Int32) : Node → Bool
  | compare op left right => op.relates (left.value values).toInt (right.value values).toInt
  | and left right => left.truth values && right.truth values
  | or left right => left.truth values || right.truth values
  | not operand => !operand.truth values
  | nonzero operand => (operand.value values).toInt != 0
  | _ => false
termination_by structural node => node

end Node

/-! ## Visits -/

/-- What a node is evaluated as. -/
inductive Role where
  | expression | condition
deriving DecidableEq, Repr

/-- A node and what it is evaluated as. -/
structure Visit where
  role : Role
  node : Node

/-- The visits of an evaluation in their order.  Operands come before the node, the left one
first, and a node that is out of place is visited without its operands. -/
def Node.visits : Node → Role → List Visit
  | .arith op left right, .expression =>
      left.visits .expression ++ (right.visits .expression
        ++ [⟨.expression, .arith op left right⟩])
  | .neg operand, .expression => operand.visits .expression ++ [⟨.expression, .neg operand⟩]
  | .compare op left right, .condition =>
      left.visits .expression ++ (right.visits .expression
        ++ [⟨.condition, .compare op left right⟩])
  | .and left right, .condition =>
      left.visits .condition ++ (right.visits .condition ++ [⟨.condition, .and left right⟩])
  | .or left right, .condition =>
      left.visits .condition ++ (right.visits .condition ++ [⟨.condition, .or left right⟩])
  | .not operand, .condition => operand.visits .condition ++ [⟨.condition, .not operand⟩]
  | .nonzero operand, .condition => operand.visits .expression ++ [⟨.condition, .nonzero operand⟩]
  | node, role => [⟨role, node⟩]
termination_by structural node => node

namespace Visit

/-- What is wrong with a visited node, if anything is. -/
def fault? (values : String → Int32) (visit : Visit) : Option Failure :=
  match visit.role, visit.node with
  | .expression, .num _ | .expression, .var _ | .expression, .neg _ => none
  | .expression, .arith op _ right =>
      if op.divides ∧ right.value values = 0 then some .divisionByZero else none
  | .expression, node => some (.notExpression node.kind)
  | .condition, .compare _ _ _ | .condition, .and _ _ | .condition, .or _ _
  | .condition, .not _ | .condition, .nonzero _ => none
  | .condition, node => some (.notCondition node.kind)

/-- The name of a visited variable. -/
def name? (visit : Visit) : Option String :=
  match visit.node with
  | .var name => some name
  | _ => none

end Visit

/-- The first fault of some visits. -/
def firstFault (values : String → Int32) (visits : List Visit) : Option Failure :=
  visits.findSome? (·.fault? values)

/-- The names of the variables that are visited before the first fault. -/
def namesRead (values : String → Int32) (visits : List Visit) : List String :=
  (visits.takeWhile fun visit => (visit.fault? values).isNone).filterMap Visit.name?

section Visits

variable {values : String → Int32} {first second : List Visit}

theorem firstFault_append :
    firstFault values (first ++ second)
      = (firstFault values first).or (firstFault values second) :=
  List.findSome?_append

/-- What comes behind a fault is not read. -/
theorem namesRead_append :
    namesRead values (first ++ second) = namesRead values first
      ++ if (firstFault values first).isNone then namesRead values second else [] := by
  induction first with
  | nil => simp [namesRead, firstFault]
  | cons visit first ih =>
      cases fault : visit.fault? values with
      | some failure => simp [namesRead, firstFault, fault]
      | none =>
          simp only [namesRead, firstFault] at ih
          cases name : visit.name? with
          | none => simp [namesRead, firstFault, fault, name, ih]
          | some name' => simp [namesRead, firstFault, fault, name, ih]

end Visits

/-! ## Bindings to zero -/

/-- The second store has the bindings of the first, and bindings to zero for those of the names
that are not bound in it. -/
def Store.Binds (names : List String) (s t : Store) : Prop :=
  ∀ name, t.bindings[name]? = (s.bindings[name]?).or (if name ∈ names then some 0 else none)

namespace Store.Binds

variable {names names' : List String} {s t u : Store}

theorem refl (s : Store) : Binds [] s s := by
  intro name
  simp

/-- The names bound by the second stretch come behind those of the first. -/
theorem trans (h : Binds names s t) (h' : Binds names' t u) : Binds (names ++ names') s u := by
  intro name
  rw [h' name, h name, Option.or_assoc]
  by_cases here : name ∈ names <;> simp [here]

/-- What is bound anew is bound to zero, so no value changes. -/
theorem value_eq (h : Binds names s t) : t.value = s.value := by
  funext name
  rw [value, value, Std.TreeMap.getD_eq_getD_getElem?, Std.TreeMap.getD_eq_getD_getElem?, h name]
  cases s.bindings[name]? with
  | some v => rfl
  | none =>
      split <;> rfl

/-- A read binds its name, to the value the name had. -/
theorem read (s : Store) (name : String) : Binds [name] s (s.read name).2 := by
  intro other
  rw [Store.read]
  cases bound : s.bindings[name]? with
  | some v =>
      by_cases same : other = name
      · subst same
        simp [bound]
      · simp [same]
  | none =>
      simp only [write, Std.TreeMap.getElem?_insert]
      by_cases same : other = name
      · subst same
        simp [bound]
      · simp [same, Ne.symm same]

end Store.Binds

/-! ## Evaluations that follow their visits -/

/-- The first fault of some visits as a result, or the given value if there is none. -/
def outcome {α : Type} (values : String → Int32) (visits : List Visit) (value : α) :
    Except Failure α :=
  match firstFault values visits with
  | some failure => .error failure
  | none => .ok value

/-- On every store with the given values the evaluation fails at the first fault of the visits or
gives the value, and it binds the names that are read before that. -/
structure Evaluation.Follows {α : Type} (e : Evaluation α) (values : String → Int32)
    (visits : List Visit) (value : α) : Prop where
  result : ∀ {s : Store}, s.value = values → (e s).1 = outcome values visits value
  binds : ∀ {s : Store}, s.value = values → Store.Binds (namesRead values visits) s (e s).2

namespace Evaluation.Follows

variable {α β : Type} {values : String → Int32} {visits visits' : List Visit} {visit : Visit}

/-- An evaluation that goes on behind another one follows the visits of both. -/
theorem append {first : Evaluation α} {second whole : Evaluation β} {a : α} {b : β}
    (h : first.Follows values visits a) (h' : second.Follows values visits' b)
    (stops : ∀ s failure, (first s).1 = .error failure → whole s = (.error failure, (first s).2))
    (goesOn : ∀ s, (first s).1 = .ok a → whole s = second (first s).2) :
    whole.Follows values (visits ++ visits') b := by
  have both : ∀ {s : Store}, s.value = values →
      (whole s).1 = outcome values (visits ++ visits') b ∧
        Store.Binds (namesRead values (visits ++ visits')) s (whole s).2 := by
    intro s same
    have result := h.result same
    have binds := h.binds same
    rw [outcome] at result
    rw [outcome, firstFault_append, namesRead_append]
    cases fault : firstFault values visits with
    | some failure =>
        rw [fault] at result
        rw [stops s failure result]
        simpa using binds
    | none =>
        rw [fault] at result
        have same' := binds.value_eq.trans same
        rw [goesOn s result]
        exact ⟨h'.result same', binds.trans (h'.binds same')⟩
  exact ⟨fun same => (both same).1, fun same => (both same).2⟩

/-- An evaluation that reads nothing follows its one visit. -/
theorem const {result : Except Failure α} {a : α} (same : result = outcome values [visit] a)
    (unread : namesRead values [visit] = []) :
    Follows (fun s => (result, s)) values [visit] a :=
  ⟨fun _ => same, fun _ => unread ▸ .refl _⟩

/-- The visit behind the operand's decides, unless one of those had a fault. -/
theorem andThen {first : Evaluation α} {next : α → Except Failure β} {a : α} {b : β}
    (h : first.Follows values visits a) (last : next a = outcome values [visit] b)
    (unread : namesRead values [visit] = []) :
    (first.andThen next).Follows values (visits ++ [visit]) b := by
  refine h.append (const last unread) (fun s failure fails => ?_) fun s gives => ?_
  · rw [andThen_eq, fails]
    rfl
  · rw [andThen_eq, gives]
    rfl

/-- The right operand's visits come behind the left one's, and the operation comes last. -/
theorem both {left right : Evaluation α} {join : α → α → Except Failure β} {a a' : α} {b : β}
    (h : left.Follows values visits a) (h' : right.Follows values visits' a')
    (last : join a a' = outcome values [visit] b) (unread : namesRead values [visit] = []) :
    (left.both right join).Follows values (visits ++ (visits' ++ [visit])) b :=
  h.append (h'.andThen last unread) (fun _ _ fails => both_of_error fails right join)
    fun _ gives => both_of_ok gives right join

end Evaluation.Follows

/-! ## Expressions and conditions -/

/-- An operator fails exactly if its visit is a fault. -/
theorem ArithOp.apply_eq_outcome (values : String → Int32) (op : ArithOp) (left right : Node) :
    op.apply (left.value values) (right.value values)
      = outcome values [⟨.expression, .arith op left right⟩]
          ((Node.arith op left right).value values) := by
  rw [apply, outcome, Node.value]
  cases quotient : op.value? (left.value values) (right.value values) with
  | none =>
      have divides := value?_eq_none_iff.mp quotient
      simp [firstFault, Visit.fault?, divides]
  | some value =>
      have divides : ¬(op.divides = true ∧ right.value values = 0) := by
        rw [← value?_eq_none_iff (a := left.value values), quotient]
        exact nofun
      simp [firstFault, Visit.fault?, divides, value?_eq_some quotient]

/-- A node that is no variable reads no name, whether or not it is a fault. -/
theorem namesRead_singleton {values : String → Int32} {visit : Visit}
    (unnamed : visit.name? = none) : namesRead values [visit] = [] := by
  cases fault : visit.fault? values with
  | none => simp [namesRead, fault, unnamed]
  | some failure => simp [namesRead, fault]

/-- An expression is evaluated along its visits. -/
theorem Node.evaluate_follows (values : String → Int32) : ∀ node : Node,
    node.evaluate.Follows values (node.visits .expression) (node.value values)
  | .num value => .const rfl rfl
  | .var name => by
      refine ⟨fun {s} same => ?_, fun _ => .read _ name⟩
      have read := s.read_fst name
      rw [same] at read
      exact congrArg Except.ok read
  | .arith op left right =>
      (left.evaluate_follows values).both (right.evaluate_follows values)
        (op.apply_eq_outcome values left right) (namesRead_singleton rfl)
  | .neg operand => by
      refine (operand.evaluate_follows values).andThen ?_ rfl
      rw [value, Int32.ofInt_neg, Int32.ofInt_toInt]
      rfl
  | .compare _ _ _ | .and _ _ | .or _ _ | .not _ | .nonzero _ | .assign _ _ | .when _ _ _
  | .loop _ _ | .out _ | .seq _ => .const rfl rfl

/-- A condition is tested along its visits. -/
theorem Node.test_follows (values : String → Int32) : ∀ node : Node,
    node.test.Follows values (node.visits .condition) (node.truth values)
  | .compare op left right =>
      (left.evaluate_follows values).both (right.evaluate_follows values)
        (congrArg Except.ok (op.holds_eq _ _)) rfl
  | .and left right => (left.test_follows values).both (right.test_follows values) rfl rfl
  | .or left right => (left.test_follows values).both (right.test_follows values) rfl rfl
  | .not operand => (operand.test_follows values).andThen rfl rfl
  | .nonzero operand =>
      (operand.evaluate_follows values).andThen (congrArg Except.ok (nonzero_eq _)) rfl
  | .num _ | .var _ | .arith _ _ _ | .neg _ | .assign _ _ | .when _ _ _ | .loop _ _ | .out _
  | .seq _ => .const rfl rfl

/-- An evaluation fails with the first fault among its visits, from left to right and operands
first, and gives the value of the tree if there is none.  It leaves the bindings of the store as
they were, and adds a binding to zero exactly for the names that were not bound and that it
visited before the first fault.  Both hold for conditions as for expressions, and for all trees,
whether their nodes are in their places or not. -/
theorem Node.evaluation_in_order (node : Node) (s : Store) :
    ((evaluateOptional (some node) s).1 =
        match firstFault s.value (node.visits .expression) with
        | some failure => .error failure
        | none => .ok (node.value s.value)) ∧
    (∀ name, (evaluateOptional (some node) s).2.bindings[name]? =
        (s.bindings[name]?).or
          (if name ∈ namesRead s.value (node.visits .expression) then some 0 else none)) ∧
    ((testOptional (some node) s).1 =
        match firstFault s.value (node.visits .condition) with
        | some failure => .error failure
        | none => .ok (node.truth s.value)) ∧
    (∀ name, (testOptional (some node) s).2.bindings[name]? =
        (s.bindings[name]?).or
          (if name ∈ namesRead s.value (node.visits .condition) then some 0 else none)) := by
  have expression := node.evaluate_follows s.value
  have condition := node.test_follows s.value
  exact ⟨expression.result rfl, expression.binds rfl, condition.result rfl, condition.binds rfl⟩

-- the right operand is visited although the left one decides, and fails before "w" is read
example :
    let node := Node.or (.nonzero (.num 1))
      (.and (.compare .lt (.arith .div (.var "x") (.var "y")) (.var "z")) (.nonzero (.var "w")))
    let visits := node.visits .condition
    firstFault (fun _ => 0) visits = some .divisionByZero ∧
      namesRead (fun _ => 0) visits = ["x", "y"] :=
  ⟨rfl, rfl⟩

end WhenLoop
