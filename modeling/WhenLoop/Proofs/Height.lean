import WhenLoop.Proofs.Acceptance
import WhenLoop.Proofs.Moves

/-!
# How high a tree gets

Evaluating, printing and dropping a tree recurse over it, so the two limits of the language are
there to bound its height.  This is the number of nodes on the longest path from the root to a
leaf (`Node.height`).

A level of nesting is worth a node at most.  A statement opens one for itself.  What a prefix
operator and a group open adds nothing to what the operators add.  An operator is worth a node,
and the conversion of an integer to a condition is a node that no counter sees.

* In a program without errors an integer is converted once along a path, since no condition is
  below an integer.  So the operators count once (`Phrase.height_le`).
* In a tree with errors there may be conditions below integers, and then every operator may have
  a conversion below it.  So the operators count twice (`deeper_bounded`).

In both cases the level that a whole condition opens pays for the conversion on top of it.
-/

namespace WhenLoop

/-! ## Height -/

mutual

/-- The number of nodes on the longest path from the root to a leaf. -/
def Node.height : Node → Nat
  | .num _ => 1
  | .var _ => 1
  | .arith _ left right => max left.height right.height + 1
  | .neg operand => operand.height + 1
  | .compare _ left right => max left.height right.height + 1
  | .and left right => max left.height right.height + 1
  | .or left right => max left.height right.height + 1
  | .not operand => operand.height + 1
  | .nonzero operand => operand.height + 1
  | .assign _ value => value.height + 1
  | .when condition thenBranch elseBranch =>
      max condition.height (max thenBranch.height (heightOfBranch elseBranch)) + 1
  | .loop condition body => max condition.height body.height + 1
  | .out value => value.height + 1
  | .seq statements => heightOfAll statements + 1
termination_by structural node => node

/-- The height of a branch, which is zero if there is none. -/
def heightOfBranch : Option Node → Nat
  | none => 0
  | some node => node.height
termination_by structural branch => branch

/-- The greatest height among the statements of a list. -/
def heightOfAll : List Node → Nat
  | [] => 0
  | node :: nodes => max node.height (heightOfAll nodes)
termination_by structural nodes => nodes

end

theorem Node.height_pos (node : Node) : 0 < node.height := by
  cases node <;> simp only [height] <;> omega

/-- A conversion adds at most a node. -/
theorem Node.height_asCondition_le (node : Node) : node.asCondition.height ≤ node.height + 1 := by
  rw [asCondition]
  split
  · exact Nat.le_succ _
  · exact Nat.le_refl _

/-! ## Trees of the grammar -/

namespace Grammar

section Operands

variable {left right operand : Node} {j k : Nat}

/-- Only an integer is converted, and it is lower by one than a condition may be. -/
theorem height_converted_le (h : operand.height ≤ k + 1 + operand.isCondition.toNat) :
    operand.asCondition.height ≤ k + 2 := by
  rw [Node.asCondition]
  split
  · rename_i isCondition
    rw [isCondition] at h
    exact h
  · rename_i integer
    rw [eq_false_of_ne_true integer] at h
    exact Nat.succ_le_succ h

/-- To join two integers adds one node, which the operator accounts for. -/
theorem height_integers_le (hl : left.height ≤ j + 1 + left.isCondition.toNat)
    (hr : right.height ≤ k + 1 + right.isCondition.toNat) (il : left.isCondition = false)
    (ir : right.isCondition = false) : max left.height right.height + 1 ≤ j + 1 + k + 1 := by
  rw [il, Bool.toNat_false] at hl
  rw [ir, Bool.toNat_false] at hr
  omega

/-- To join two conditions may convert both, which is a node more. -/
theorem height_conditions_le (hl : left.height ≤ j + 1 + left.isCondition.toNat)
    (hr : right.height ≤ k + 1 + right.isCondition.toNat) :
    max left.asCondition.height right.asCondition.height + 1 ≤ j + 1 + k + 1 + 1 := by
  have left := height_converted_le hl
  have right := height_converted_le hr
  omega

end Operands

/-- In a phrase every operator is a node, and along a path one integer may be converted to a
condition. -/
theorem Phrase.height_le {rank : Rank} {levels k : Nat} {ts : List Token} {node : Node}
    (h : Phrase rank levels k ts node) : node.height ≤ k + 1 + node.isCondition.toNat := by
  induction h with
  | number => exact Nat.le_refl 1
  | name => exact Nat.le_refl 1
  | group _ _ _ ih => exact ih
  | ofPrimary _ ih => exact ih
  | negative _ _ integer ih =>
      rw [integer] at ih
      exact Nat.succ_le_succ ih
  | ofUnary _ ih => exact ih
  | product _ _ _ il ir ihl ihr => exact height_integers_le ihl ihr il ir
  | ofFactor _ ih => exact ih
  | sum _ _ _ il ir ihl ihr => exact height_integers_le ihl ihr il ir
  | ofTerm _ ih => exact ih
  | compare _ _ _ il ir ihl ihr => exact Nat.le_succ_of_le (height_integers_le ihl ihr il ir)
  | ofComparison _ ih => exact ih
  | negation _ _ ih => exact Nat.succ_le_succ (height_converted_le ih)
  | ofNot _ ih => exact ih
  | conjunction _ _ _ ihl ihr => exact height_conditions_le ihl ihr
  | ofAnd _ ih => exact ih
  | disjunction _ _ _ ihl ihr => exact height_conditions_le ihl ihr

variable {most levels : Nat} {ts : List Token} {node : Node}

theorem Expression.height_le (h : Expression most levels ts node) :
    node.height ≤ levels + most + 1 := by
  cases h with
  | whole phrase le integer =>
      have height := phrase.height_le
      rw [integer, Bool.toNat_false] at height
      omega

theorem Condition.height_le (h : Condition most levels ts node) :
    node.height ≤ levels + most + 1 := by
  cases h with
  | whole phrase le =>
      have height := height_converted_le phrase.height_le
      omega

mutual

/-- By recursion on the derivation.  A statement is one higher than its parts, and has opened a
level for them. -/
theorem Statement.height_le {most : Nat} : ∀ {levels : Nat} {ts : List Token} {node : Node},
    Statement most levels ts node → node.height ≤ levels + most + 1
  | _, _, _, .assign _ _ h _ => by
      have value := h.height_le
      rw [Node.height]
      omega
  | _, _, _, .out _ h _ => by
      have value := h.height_le
      rw [Node.height]
      omega
  | _, _, _, .when _ _ h _ hb => by
      have test := h.height_le
      have branch := hb.height_le
      rw [Node.height, heightOfBranch]
      omega
  | _, _, _, .whenElse _ _ h _ hb _ _ hb' => by
      have test := h.height_le
      have branch := hb.height_le
      have branch' := hb'.height_le
      rw [Node.height, heightOfBranch]
      omega
  | _, _, _, .loop _ _ h _ hb => by
      have test := h.height_le
      have body := hb.height_le
      rw [Node.height]
      omega
  | _, _, _, .block _ hs _ => by
      have statements := hs.height_le
      rw [Node.height]
      omega

theorem Statements.height_le {most : Nat} :
    ∀ {levels : Nat} {ts : List Token} {nodes : List Node},
      Statements most levels ts nodes → heightOfAll nodes ≤ levels + most + 1
  | _, _, _, .nil => Nat.zero_le _
  | _, _, _, .cons h hs => Nat.max_le.mpr ⟨h.height_le, hs.height_le⟩

end

/-- A program is one list around its statements. -/
theorem Program.height_le (h : Program most levels ts node) : node.height ≤ levels + most + 2 := by
  cases h with
  | whole statements => exact Nat.succ_le_succ statements.height_le

end Grammar

/-! ## Trees of all expressions -/

/-- The operators counted so far, but for the one that passed the limit. -/
def State.used (s : State) : Nat := min s.operators maxOperators

theorem State.used_le (s : State) : s.used ≤ maxOperators := Nat.min_le_right ..

theorem State.used_of_operators {s s' : State} (same : s'.operators = s.operators) :
    s'.used = s.used :=
  congrArg (min · maxOperators) same

theorem State.reportCondition_operators (s : State) (problem : Problem) (node : Node) :
    (s.reportCondition problem node).operators = s.operators := by
  rw [reportCondition]
  split
  · exact report_operators ..
  · rfl

namespace Parser

/-- The node is no higher than two for each operator that is counted on the way, and `extra`. -/
def Bounded (extra : Nat) (p : Parser) : Prop :=
  ∀ s : State, (p s).1.height + 2 * s.used ≤ 2 * (p s).2.used + extra

theorem Bounded.nested {p : Parser} {extra : Nat} (h : p.Bounded extra) : p.nested.Bounded extra :=
  fun s => h { s with depth := s.depth + 1 }

/-- What stands for a phrase that was refused is a leaf. -/
theorem tooDeep_bounded (extra : Nat) : (tooDeep (.num 0)).Bounded (extra + 1) := by
  intro s
  have same := State.used_of_operators (s.abort_operators .nestingTooDeep)
  simp only [tooDeep, same, Node.height]
  omega

/-- An operator is counted, or it is the one that passes the limit and the node stays as it is. -/
theorem counted_used (p : Parser) (node : Node) (s : State) :
    (∃ s', s'.used = s.used + 1 ∧ p.counted node s = p s') ∨
      (p.counted node s).1 = node ∧ (p.counted node s).2.used = s.used := by
  simp only [counted]
  split
  · rename_i le
    exact .inl ⟨_, by simp only [State.used]; omega, rfl⟩
  · refine .inr ⟨rfl, ?_⟩
    simp only [State.used, State.abort_operators]
    omega

end Parser

namespace Rung

/-- To join two operands adds a node, and another one where they are converted. -/
def Joins (rung : Rung) : Prop :=
  ∀ ⦃kind : TokenKind⦄ ⦃join : Node → Node → Node⦄, rung.join? kind = some join →
    ∀ left right, (join left right).height ≤ max left.height right.height + 2

/-- To join conditions adds at most two nodes, the join and a conversion. -/
theorem height_join_conditions_le (left right : Node) :
    max left.asCondition.height right.asCondition.height + 1
      ≤ max left.height right.height + 2 := by
  have left' := left.height_asCondition_le
  have right' := right.height_asCondition_le
  omega

theorem disjunction_joins : disjunction.Joins := by
  intro kind join joins left right
  simp only [disjunction] at joins
  split at joins
  · cases joins
    exact height_join_conditions_le left right
  · cases joins

theorem conjunction_joins : conjunction.Joins := by
  intro kind join joins left right
  simp only [conjunction] at joins
  split at joins
  · cases joins
    exact height_join_conditions_le left right
  · cases joins

theorem comparison_joins : comparison.Joins := by
  intro kind join joins left right
  simp only [comparison] at joins
  split at joins <;> cases joins <;> exact Nat.le_succ _

theorem sum_joins : sum.Joins := by
  intro kind join joins left right
  simp only [sum] at joins
  split at joins <;> cases joins <;> exact Nat.le_succ _

theorem product_joins : product.Joins := by
  intro kind join joins left right
  simp only [product] at joins
  split at joins <;> cases joins <;> exact Nat.le_succ _

theorem checkOperand_used (rung : Rung) (s : State) (node : Node) :
    (rung.checkOperand s node).used = s.used := by
  rw [checkOperand]
  split
  · exact State.used_of_operators (State.reportCondition_operators ..)
  · rfl

variable {rung : Rung} {operand : Parser}

/-- A chain keeps the bound of its left operand, where `before` operators were counted before the
left operand was read. -/
theorem chain_bounded (joins : rung.Joins) (h : operand.Bounded 1) (before : Nat) :
    ∀ (most : Nat) (left : Node) (s : State), left.height + 2 * before ≤ 2 * s.used + 1 →
      (rung.chain operand most left s).1.height + 2 * before
        ≤ 2 * (rung.chain operand most left s).2.used + 1
  | 0, _, _, le => le
  | most + 1, left, s, le => by
      cases sign : rung.join? s.current.kind with
      | none =>
          rw [chain_of_none sign]
          exact le
      | some join =>
          rw [chain_of_some sign]
          have stepped : s.advance.used = s.used := State.used_of_operators s.advance_operators
          rcases Parser.counted_used (rung.link operand most join left) left s.advance with
            ⟨s', counted, same⟩ | ⟨node, counted⟩
          · rw [same]
            refine chain_bounded joins h before most _ _ ?_
            have right := h (rung.checkOperand s' left)
            have joined := joins sign left (operand (rung.checkOperand s' left)).1
            have pos := left.height_pos
            have pos' := (operand (rung.checkOperand s' left)).1.height_pos
            rw [checkOperand_used] at right ⊢
            omega
          · rw [node, counted, stepped]
            exact le

theorem many_bounded (joins : rung.Joins) (h : operand.Bounded 1) : (rung.many operand).Bounded 1 :=
  fun s => chain_bounded joins h s.used _ _ _ (h s)

theorem once_bounded (joins : rung.Joins) (h : operand.Bounded 1) : (rung.once operand).Bounded 1 :=
  fun s => chain_bounded joins h s.used _ _ _ (h s)

end Rung

namespace Deeper

/-- What the parsers inside one more level of nesting read is bounded.  A prefix operator was
counted before its operand is read, so its node may be higher by two. -/
structure Bounded (d : Deeper) : Prop where
  group : d.group.Bounded 1
  negation : d.negation.Bounded 3
  negative : d.negative.Bounded 3

variable {d : Deeper}

/-- With its operator counted, a prefix operator is bounded as all else is. -/
theorem prefixed_bounded {p : Parser} (h : p.Bounded 3) (s : State) :
    (p.counted (.num 0) s.advance).1.height + 2 * s.used
      ≤ 2 * (p.counted (.num 0) s.advance).2.used + 1 := by
  have stepped : s.advance.used = s.used := State.used_of_operators s.advance_operators
  rcases Parser.counted_used p (.num 0) s.advance with ⟨s', counted, same⟩ | ⟨node, counted⟩
  · have read := h s'
    rw [same]
    omega
  · rw [node, counted, stepped, Node.height]
    omega

/-- A number and a name are leaves, and a group is as high as what it holds. -/
theorem Bounded.primary (h : d.Bounded) : d.primary.Bounded 1 := by
  intro s
  have stepped : s.advance.used = s.used := State.used_of_operators s.advance_operators
  have reported : ∀ problem, (s.advance.reportPrevious problem).used = s.used := fun problem =>
    (State.used_of_operators (State.report_operators ..)).trans stepped
  rw [Deeper.primary]
  split
  · split
    · simp only [Node.height, stepped]
      omega
    · simp only [Node.height, reported]
      omega
  · simp only [Node.height, stepped]
    omega
  · have closed : ((d.group s.advance).2.expect .closeParen .expectedGroupEnd).used
        = (d.group s.advance).2.used := State.used_of_operators (State.expect_operators ..)
    have inner := h.group s.advance
    rw [stepped, ← closed] at inner
    exact inner
  · simp only [Node.height, reported]
    omega

/-- A sign is counted before its operand is read, and its node takes up part of the two that it
counts for. -/
theorem Bounded.signed (h : d.Bounded) : d.signed.Bounded 1 := by
  intro s
  rw [Deeper.signed]
  split
  · exact prefixed_bounded h.negative s
  · exact h.primary s

theorem Bounded.comparison (h : d.Bounded) : d.comparison.Bounded 1 :=
  Rung.once_bounded Rung.comparison_joins
    (Rung.many_bounded Rung.sum_joins (Rung.many_bounded Rung.product_joins h.signed))

/-- Likewise for `not`, where its operand may be converted as well. -/
theorem Bounded.negated (h : d.Bounded) : d.negated.Bounded 1 := by
  intro s
  rw [Deeper.negated]
  split
  · exact prefixed_bounded h.negation s
  · exact h.comparison s

theorem Bounded.ladder (h : d.Bounded) : d.ladder.Bounded 1 :=
  Rung.many_bounded Rung.disjunction_joins (Rung.many_bounded Rung.conjunction_joins h.negated)

/-- The bounds pass from one level to the next: the operator in front pays for the node above its
operand. -/
theorem Bounded.next (h : d.Bounded) : d.next.Bounded where
  group := h.ladder.nested
  negation := by
    intro s
    have operand := h.negated.nested s
    have converted := (d.negated.nested s).1.height_asCondition_le
    simp only [next_negation, Node.height]
    omega
  negative := by
    intro s
    have operand := h.signed.nested s
    rw [next_negative, State.used_of_operators (State.reportCondition_operators ..)]
    simp only [Node.height]
    omega

end Deeper

theorem deeper_bounded : ∀ levels : Nat, (deeper levels).Bounded
  | 0 => ⟨Parser.tooDeep_bounded 0, Parser.tooDeep_bounded 2, Parser.tooDeep_bounded 2⟩
  | levels + 1 => (deeper_bounded levels).next

/-! ## Trees of all statements -/

/-- How high a tree gets when `levels` levels of nesting may be opened for it. -/
def heightBound (levels : Nat) : Nat := levels + 2 * maxOperators + 1

/-- With no operator counted yet at most the limit of them can be, at two nodes each. -/
theorem group_height_le (levels : Nat) (s : State) :
    ((deeper levels).group { s with operators := 0 }).1.height ≤ 2 * maxOperators + 1 := by
  have read := (deeper_bounded levels).group { s with operators := 0 }
  have limit := ((deeper levels).group { s with operators := 0 }).2.used_le
  omega

/-- Every expression is within the bound, correct or not. -/
theorem expression_height_le (levels : Nat) (s : State) :
    (expression levels s).1.height ≤ heightBound levels := by
  have enough : 2 * maxOperators + 1 ≤ heightBound levels := by
    rw [heightBound]
    omega
  exact Nat.le_trans (group_height_le levels s) enough

/-- A condition that is not read at all has no operators, and any other one has a level of its
own for the conversion. -/
theorem condition_height_le (levels : Nat) (s : State) :
    (condition levels s).1.height ≤ heightBound levels := by
  cases levels with
  | zero => exact (by decide : 2 ≤ heightBound 0)
  | succ levels =>
      have read := group_height_le (levels + 1) s
      have enough : 2 * maxOperators + 1 + 1 ≤ heightBound (levels + 1) := by
        rw [heightBound]
        omega
      exact Nat.le_trans (Node.height_asCondition_le _)
        (Nat.le_trans (Nat.succ_le_succ read) enough)

theorem statementList_height_le {p : Parser} {bound : Nat} (h : ∀ s, (p s).1.height ≤ bound)
    (stop : TokenKind → Bool) :
    ∀ (most : Nat) (s : State), heightOfAll (statementList stop p most s).1 ≤ bound
  | 0, _ => Nat.zero_le _
  | most + 1, s => by
      rw [statementList]
      split
      · exact Nat.zero_le _
      · exact Nat.max_le.mpr ⟨h s, statementList_height_le h stop most _⟩

/-- A statement is one higher than its highest part. -/
theorem statementByKind_height_le (most levels : Nat) {inner : Parser}
    (h : ∀ s, (inner s).1.height ≤ heightBound levels) (s : State) :
    (statementByKind most levels inner s).1.height ≤ heightBound levels + 1 := by
  have value := expression_height_le levels
  have test := fun kind (s : State) =>
    condition_height_le levels (s.advance.expect .openParen (.expectedOpenParen kind))
  rw [statementByKind]
  split
  · rw [conditional]
    dsimp only
    split
    · simp only [Node.height, heightOfBranch]
      exact Nat.succ_le_succ (Nat.max_le.mpr ⟨test _ s, Nat.max_le.mpr ⟨h _, h _⟩⟩)
    · simp only [Node.height, heightOfBranch]
      exact Nat.succ_le_succ (Nat.max_le.mpr ⟨test _ s, Nat.max_le.mpr ⟨h _, Nat.zero_le _⟩⟩)
  · exact Nat.succ_le_succ (Nat.max_le.mpr ⟨test _ s, h _⟩)
  · exact Nat.succ_le_succ (value _)
  · exact Nat.succ_le_succ (statementList_height_le h _ most _)
  · exact Nat.succ_le_succ (value _)
  · exact Nat.succ_le_succ (Nat.zero_le _)

/-- By recursion on the levels: one more level allows one more node. -/
theorem statement_height_le (most : Nat) :
    ∀ (levels : Nat) (s : State), (statement most levels s).1.height ≤ heightBound levels
  | 0, _ => (by decide : 1 ≤ heightBound 0)
  | levels + 1, s => by
      have read := statementByKind_height_le most levels (statement_height_le most levels)
        { s with depth := s.depth + 1 }
      have enough : heightBound levels + 1 = heightBound (levels + 1) := by
        simp only [heightBound]
        omega
      exact enough ▸ read

/-- The tree of a source is at most as high as the nesting limit, twice the operator limit and two
more nodes, whatever is wrong with the source.  If nothing is wrong then the operator limit counts
only once. -/
theorem parse_height_le (source : String) :
    (parse source).tree.height ≤ maxNesting + 2 * maxOperators + 2 ∧
    ((parse source).reports = [] →
      (parse source).tree.height ≤ maxNesting + maxOperators + 2) := by
  constructor
  · exact Nat.succ_le_succ
      (statementList_height_le (statement_height_le _ maxNesting) _ _ (.ofScan (scan source)))
  · intro silent
    obtain ⟨tokens, -, derives⟩ := parse_sound silent
    exact derives.height_le

/-- A condition that is converted, above a sum.  The conversion is the node that no limit counts. -/
theorem parse_height_le_converted :
    (parse "when (a + 1) out -x;").reports = [] ∧
    (parse "when (a + 1) out -x;").tree.height = 5 ∧
    (parse "when (a + 1) out -x;").tree.height ≤ maxNesting + maxOperators + 2 := by
  have silent : (parse "when (a + 1) out -x;").reports = [] := by decide +kernel
  exact ⟨silent, by decide +kernel, (parse_height_le _).2 silent⟩

end WhenLoop
