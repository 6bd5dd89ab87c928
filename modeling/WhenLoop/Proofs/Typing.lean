import WhenLoop.Proofs.Acceptance

/-!
# Typed trees

A tree is typed if every node stands where it belongs: expressions in the places of
integers, conditions in the places of truth values and statements in the places of
statements.  The type of trees does not ask for this, and reading a source with something
wrong in it can leave a tree that is not typed.

The grammar does ask for it.  A phrase is an expression or a condition, and which of the two
it is can be seen from its root (`Phrase.typed`).  So the checks on roots that the rules make
are enough, and the tree of an accepted source is typed (`readProgram_typed`).
-/

namespace WhenLoop

namespace Node

/-- The tree of an integer. -/
inductive IsExpression : Node → Prop where
  | num {value : Int32} : IsExpression (.num value)
  | var {name : String} : IsExpression (.var name)
  | arith {op : ArithOp} {left right : Node} :
      IsExpression left → IsExpression right → IsExpression (.arith op left right)
  | neg {operand : Node} : IsExpression operand → IsExpression (.neg operand)

/-- The tree of a truth value. -/
inductive IsCondition : Node → Prop where
  | compare {op : CompareOp} {left right : Node} :
      IsExpression left → IsExpression right → IsCondition (.compare op left right)
  | and {left right : Node} : IsCondition left → IsCondition right → IsCondition (.and left right)
  | or {left right : Node} : IsCondition left → IsCondition right → IsCondition (.or left right)
  | not {operand : Node} : IsCondition operand → IsCondition (.not operand)
  | nonzero {operand : Node} : IsExpression operand → IsCondition (.nonzero operand)

/-- The tree of a statement. -/
inductive IsStatement : Node → Prop where
  | assign {target : String} {value : Node} :
      IsExpression value → IsStatement (.assign target value)
  | when {condition thenBranch : Node} :
      IsCondition condition → IsStatement thenBranch →
      IsStatement (.when condition thenBranch none)
  | whenElse {condition thenBranch elseBranch : Node} :
      IsCondition condition → IsStatement thenBranch → IsStatement elseBranch →
      IsStatement (.when condition thenBranch (some elseBranch))
  | loop {condition body : Node} :
      IsCondition condition → IsStatement body → IsStatement (.loop condition body)
  | out {value : Node} : IsExpression value → IsStatement (.out value)
  | seq {statements : List Node} :
      (∀ node ∈ statements, IsStatement node) → IsStatement (.seq statements)

theorem IsExpression.isCondition_eq {node : Node} (h : node.IsExpression) :
    node.isCondition = false := by
  cases h <;> rfl

theorem IsCondition.isCondition_eq {node : Node} (h : node.IsCondition) :
    node.isCondition = true := by
  cases h <;> rfl

/-- What may stand for an integer or, in a condition's place, for a truth value. -/
def IsTyped (node : Node) : Prop := node.IsExpression ∨ node.IsCondition

/-- What is typed and is no condition is an expression. -/
theorem IsTyped.isExpression {node : Node} (h : node.IsTyped) (other : node.isCondition = false) :
    node.IsExpression := by
  rcases h with expression | condition
  · exact expression
  · rw [condition.isCondition_eq] at other
    cases other

/-- In a condition's place an integer becomes a condition, and a condition stays as it is. -/
theorem IsTyped.asCondition {node : Node} (h : node.IsTyped) : node.asCondition.IsCondition := by
  rw [Node.asCondition]
  rcases h with expression | condition
  · rw [expression.isCondition_eq]
    exact .nonzero expression
  · rw [condition.isCondition_eq]
    exact condition

end Node

/-! ## The grammar makes typed trees -/

namespace Grammar

/-- By induction on the derivation.  The rules for the operators ask for operands of the right
type. -/
theorem Phrase.typed {rank : Rank} {levels k : Nat} {ts : List Token} {node : Node}
    (h : Phrase rank levels k ts node) : node.IsTyped := by
  induction h with
  | number => exact .inl .num
  | name => exact .inl .var
  | group _ _ _ ih => exact ih
  | ofPrimary _ ih => exact ih
  | negative _ _ integer ih => exact .inl (.neg (ih.isExpression integer))
  | ofUnary _ ih => exact ih
  | product _ _ _ il ir ihl ihr => exact .inl (.arith (ihl.isExpression il) (ihr.isExpression ir))
  | ofFactor _ ih => exact ih
  | sum _ _ _ il ir ihl ihr => exact .inl (.arith (ihl.isExpression il) (ihr.isExpression ir))
  | ofTerm _ ih => exact ih
  | compare _ _ _ il ir ihl ihr =>
      exact .inr (.compare (ihl.isExpression il) (ihr.isExpression ir))
  | ofComparison _ ih => exact ih
  | negation _ _ ih => exact .inr (.not ih.asCondition)
  | ofNot _ ih => exact ih
  | conjunction _ _ _ ihl ihr => exact .inr (.and ihl.asCondition ihr.asCondition)
  | ofAnd _ ih => exact ih
  | disjunction _ _ _ ihl ihr => exact .inr (.or ihl.asCondition ihr.asCondition)

/-- An expression has no condition at its root. -/
theorem Expression.typed {most levels : Nat} {ts : List Token} {node : Node}
    (h : Expression most levels ts node) : node.IsExpression := by
  cases h with
  | whole phrase _ integer => exact phrase.typed.isExpression integer

/-- A condition has one, since an integer in its place was converted. -/
theorem Condition.typed {most levels : Nat} {ts : List Token} {node : Node}
    (h : Condition most levels ts node) : node.IsCondition := by
  cases h with
  | whole phrase _ => exact phrase.typed.asCondition

mutual

/-- By recursion on the derivation of a statement and, below, of a list of them. -/
theorem Statement.typed {most : Nat} : ∀ {levels : Nat} {ts : List Token} {node : Node},
    Statement most levels ts node → node.IsStatement
  | _, _, _, .assign _ _ h _ => .assign h.typed
  | _, _, _, .out _ h _ => .out h.typed
  | _, _, _, .when _ _ h _ hb => .when h.typed hb.typed
  | _, _, _, .whenElse _ _ h _ hb _ _ hb' => .whenElse h.typed hb.typed hb'.typed
  | _, _, _, .loop _ _ h _ hb => .loop h.typed hb.typed
  | _, _, _, .block _ hs _ => .seq hs.typed

theorem Statements.typed {most : Nat} :
    ∀ {levels : Nat} {ts : List Token} {nodes : List Node},
      Statements most levels ts nodes → ∀ node ∈ nodes, node.IsStatement
  | _, _, _, .nil => List.forall_mem_nil _
  | _, _, _, .cons h hs => List.forall_mem_cons.mpr ⟨h.typed, hs.typed⟩

end

end Grammar

/-- The tree of an accepted source is a statement. -/
theorem readProgram_typed {source : String} {tree : Node} (h : readProgram source = .ok tree) :
    tree.IsStatement := by
  obtain ⟨silent, rfl⟩ := readProgram_eq_ok.mp h
  obtain ⟨tokens, -, derives⟩ := parse_sound silent
  cases derives with
  | whole statements => exact .seq statements.typed

end WhenLoop
