import WhenLoop.Parse.Statement

/-!
# Reports only grow

A parse never takes a report back.  Reports are kept latest first, so the reports before a
step are an end piece of the reports behind it.  Every operation on states has this
property, and every way to put parsers together keeps it.

So a parse that ends without a report had none at any time before.  This is what lets
the absence of reports at the end be used at every step on the way.
-/

namespace WhenLoop

namespace State

/-! ## States -/

theorem report_grows (s : State) (r : Report) : s.reports <:+ (s.report r).reports := by
  rw [report]
  split
  · exact List.suffix_rfl
  · exact List.suffix_cons ..

/-- Stepping adds the faults on its way and takes no report back. -/
theorem skip_grows (stop : Token → Token → Bool) (s : State) (items : List Item) :
    s.reports <:+ (skip stop s items).reports := by
  fun_induction skip stop s items with
  | case1 s => exact List.suffix_rfl
  | case2 s fault items ih => exact (report_grows s _).trans ih
  | case3 s token items stops => exact List.suffix_rfl
  | case4 s token items goesOn ih => exact ih

theorem advance_grows (s : State) : s.reports <:+ s.advance.reports :=
  skip_grows _ { s with previous := s.current } _

/-- A token that is missing is reported on top of the earlier reports. -/
theorem expect_grows (s : State) (kind : TokenKind) (problem : Problem) :
    s.reports <:+ (s.expect kind problem).reports := by
  rw [expect]
  split
  · exact s.advance_grows
  · exact s.report_grows _

theorem abort_grows (s : State) (problem : Problem) :
    s.reports <:+ (s.abort problem).reports :=
  (s.report_grows _).trans (skip_grows _ { s.reportCurrent problem with aborted := true } _)

/-- Recovery takes no report back, also when it ends the panic. -/
theorem recover_grows (s : State) : s.reports <:+ s.recover.reports := by
  rw [recover]
  split
  · exact List.suffix_rfl
  · exact skip_grows _ { s with panicking := false } _

/-- A condition in an integer's place is reported on top of the earlier reports. -/
theorem reportCondition_grows (s : State) (problem : Problem) (node : Node) :
    s.reports <:+ (s.reportCondition problem node).reports := by
  rw [reportCondition]
  split
  · exact s.report_grows _
  · exact List.suffix_rfl

end State

/-! ## Parsers of expressions -/

namespace Parser

/-- What is read inside a level, with the level closed again. -/
theorem nested_eq (p : Parser) (s : State) :
    p.nested s = ((p { s with depth := s.depth + 1 }).1,
      { (p { s with depth := s.depth + 1 }).2 with
        depth := (p { s with depth := s.depth + 1 }).2.depth - 1 }) := rfl

/-- A parser that takes no report back. -/
def Grows (p : Parser) : Prop := ∀ s, s.reports <:+ (p s).2.reports

theorem Grows.nested {p : Parser} (h : p.Grows) : p.nested.Grows :=
  fun s => h { s with depth := s.depth + 1 }

theorem tooDeep_grows (node : Node) : (tooDeep node).Grows :=
  fun s => s.abort_grows _

/-- An operator that passes the limit makes the parse give up, and this takes no report back
either. -/
theorem Grows.counted {p : Parser} (h : p.Grows) (node : Node) : (p.counted node).Grows := by
  intro s
  simp only [Parser.counted]
  split
  · exact h { s with operators := s.operators + 1 }
  · exact State.abort_grows { s with operators := s.operators + 1 } _

end Parser

namespace Rung

theorem checkOperand_grows (rung : Rung) (s : State) (node : Node) :
    s.reports <:+ (rung.checkOperand s node).reports := by
  rw [checkOperand]
  split
  · exact s.reportCondition_grows _ _
  · exact List.suffix_rfl

/-- What a chain does behind an operator: read the right operand and go on. -/
def link (rung : Rung) (operand : Parser) (most : Nat) (join : Node → Node → Node)
    (left : Node) : Parser := fun s =>
  let right := operand (rung.checkOperand s left)
  rung.chain operand most (join left right.1) (rung.checkOperand right.2 right.1)

/-- At a token that is no operator of the rung the chain ends, whatever its bound is. -/
theorem chain_of_none {rung : Rung} {s : State} (h : rung.join? s.current.kind = none)
    (operand : Parser) (most : Nat) (left : Node) : rung.chain operand most left s = (left, s) := by
  cases most with
  | zero => rfl
  | succ most => simp only [chain, h]

/-- An operator of the rung is counted and read, and the chain goes on behind it. -/
theorem chain_of_some {rung : Rung} {s : State} {join : Node → Node → Node}
    (h : rung.join? s.current.kind = some join) (operand : Parser) (most : Nat) (left : Node) :
    rung.chain operand (most + 1) left s =
      (rung.link operand most join left).counted left s.advance := by
  simp only [chain, h]
  rfl

/-- A chain of many is its first operand and the chain behind it. -/
theorem many_eq (rung : Rung) (operand : Parser) (s : State) :
    rung.many operand s = rung.chain operand (maxOperators + 1) (operand s).1 (operand s).2 := rfl

/-- A chain of one operator is its first operand and at most one more. -/
theorem once_eq (rung : Rung) (operand : Parser) (s : State) :
    rung.once operand s = rung.chain operand 1 (operand s).1 (operand s).2 := rfl

/-- From one operator of a chain to the next no report is taken back. -/
theorem link_grows {rung : Rung} {operand : Parser} {most : Nat} (h : operand.Grows)
    (goesOn : ∀ left, (rung.chain operand most left).Grows) (join : Node → Node → Node)
    (left : Node) : (rung.link operand most join left).Grows := by
  intro s
  have read := (rung.checkOperand_grows s left).trans (h _)
  exact (read.trans (rung.checkOperand_grows _ _)).trans (goesOn _ _)

/-- A chain takes no report back, by induction on its bound. -/
theorem chain_grows {rung : Rung} {operand : Parser} (h : operand.Grows) :
    ∀ (most : Nat) (left : Node), (rung.chain operand most left).Grows
  | 0, _ => fun _ => List.suffix_rfl
  | most + 1, left => by
      intro s
      cases joins : rung.join? s.current.kind with
      | none =>
          simp only [chain_of_none joins]
          exact List.suffix_rfl
      | some join =>
          rw [chain_of_some joins]
          have grown : (rung.link operand most join left).Grows :=
            link_grows h (chain_grows h most) join left
          exact s.advance_grows.trans (grown.counted left s.advance)

theorem many_grows {rung : Rung} {operand : Parser} (h : operand.Grows) :
    (rung.many operand).Grows :=
  fun s => (h s).trans (chain_grows h _ _ _)

theorem once_grows {rung : Rung} {operand : Parser} (h : operand.Grows) :
    (rung.once operand).Grows :=
  fun s => (h s).trans (chain_grows h _ _ _)

end Rung

namespace Deeper

/-- None of the parsers takes a report back. -/
structure Grows (d : Deeper) : Prop where
  group : d.group.Grows
  negation : d.negation.Grows
  negative : d.negative.Grows

variable {d : Deeper}

/-- A primary takes no report back if a group does not. -/
theorem Grows.primary (h : d.Grows) : d.primary.Grows := by
  intro s
  rw [Deeper.primary]
  split
  · split
    · exact s.advance_grows
    · exact s.advance_grows.trans (s.advance.report_grows _)
  · exact s.advance_grows
  · exact (s.advance_grows.trans (h.group s.advance)).trans (State.expect_grows _ _ _)
  · exact s.advance_grows.trans (s.advance.report_grows _)

theorem Grows.signed (h : d.Grows) : d.signed.Grows := by
  intro s
  rw [Deeper.signed]
  split
  · exact s.advance_grows.trans (h.negative.counted _ s.advance)
  · exact h.primary s

theorem Grows.comparison (h : d.Grows) : d.comparison.Grows :=
  Rung.once_grows (Rung.many_grows (Rung.many_grows h.signed))

/-- A `not` takes no report back, and neither does what stands in its place. -/
theorem Grows.negated (h : d.Grows) : d.negated.Grows := by
  intro s
  rw [Deeper.negated]
  split
  · exact s.advance_grows.trans (h.negation.counted _ s.advance)
  · exact h.comparison s

theorem Grows.ladder (h : d.Grows) : d.ladder.Grows :=
  Rung.many_grows (Rung.many_grows h.negated)

/-- One level further down a `not` has the same reading of its operand. -/
theorem next_negation (d : Deeper) (s : State) :
    d.next.negation s = (.not (d.negated.nested s).1.asCondition, (d.negated.nested s).2) := rfl

/-- One level further down a sign has the same reading of its operand, which is checked. -/
theorem next_negative (d : Deeper) (s : State) :
    d.next.negative s = (.neg (d.signed.nested s).1,
      (d.signed.nested s).2.reportCondition .conditionForOperand (d.signed.nested s).1) := rfl

theorem Grows.next (h : d.Grows) : d.next.Grows where
  group := h.ladder.nested
  negation := h.negated.nested
  negative := fun s => (h.signed.nested s).trans (State.reportCondition_grows _ _ _)

end Deeper

/-- The parsers inside any number of levels take no report back. -/
theorem deeper_grows : ∀ levels : Nat, (deeper levels).Grows
  | 0 => ⟨Parser.tooDeep_grows _, Parser.tooDeep_grows _, Parser.tooDeep_grows _⟩
  | levels + 1 => (deeper_grows levels).next

/-- An expression is a group without its parentheses, with its own count of operators. -/
theorem expression_eq (levels : Nat) (s : State) :
    expression levels s = (((deeper levels).group { s with operators := 0 }).1,
      ((deeper levels).group { s with operators := 0 }).2.reportCondition .conditionForExpression
        ((deeper levels).group { s with operators := 0 }).1) := rfl

theorem expression_grows (levels : Nat) : (expression levels).Grows :=
  fun s => ((deeper_grows levels).group { s with operators := 0 }).trans
    (State.reportCondition_grows _ _ _)

theorem condition_grows (levels : Nat) : (condition levels).Grows :=
  fun s => (deeper_grows levels).group { s with operators := 0 }

/-! ## Parsers of statements -/

/-- A statement with its recovery takes no report back. -/
theorem recovering_grows {p : Parser} (h : p.Grows) : (recovering p).Grows := by
  intro s
  rw [recovering]
  split
  rename_i node left same
  have kept : s.reports <:+ left.reports := by simpa [same] using h s
  dsimp only
  split
  · exact kept.trans left.recover_grows
  · exact kept

/-- A list of statements takes no report back, by induction on its bound. -/
theorem statementList_grows {stop : TokenKind → Bool} {p : Parser} (h : p.Grows) :
    ∀ (most : Nat) (s : State), s.reports <:+ (statementList stop p most s).2.reports
  | 0, _ => List.suffix_rfl
  | most + 1, s => by
      rw [statementList]
      split
      · exact List.suffix_rfl
      · exact (recovering_grows h s).trans (statementList_grows h most _)

theorem assignment_grows (levels : Nat) : (assignment levels).Grows := by
  intro s
  have begun := s.advance_grows.trans (s.advance.expect_grows .assign .expectedAssign)
  exact (begun.trans (expression_grows levels _)).trans (State.expect_grows _ _ _)

theorem output_grows (levels : Nat) : (output levels).Grows := fun s =>
  (s.advance_grows.trans (expression_grows levels _)).trans (State.expect_grows _ _ _)

theorem guardOf_grows (kind : Guarded) (levels : Nat) : (guardOf kind levels).Grows := by
  intro s
  have begun := s.advance_grows.trans (s.advance.expect_grows .openParen (.expectedOpenParen kind))
  exact (begun.trans (condition_grows levels _)).trans (State.expect_grows _ _ _)

/-- A conditional takes no report back if its branches do not. -/
theorem conditional_grows (levels : Nat) {inner : Parser} (h : inner.Grows) :
    (conditional levels inner).Grows := by
  intro s
  rw [conditional]
  have kept := (guardOf_grows .when levels s).trans (h (guardOf .when levels s).2)
  dsimp only
  split
  · exact (kept.trans (State.advance_grows _)).trans (h _)
  · exact kept

theorem repetition_grows (levels : Nat) {inner : Parser} (h : inner.Grows) :
    (repetition levels inner).Grows :=
  fun s => (guardOf_grows .loop levels s).trans (h _)

theorem block_grows (most : Nat) {inner : Parser} (h : inner.Grows) : (block most inner).Grows :=
  fun s => (s.advance_grows.trans (statementList_grows h most _)).trans (State.expect_grows _ _ _)

/-- No kind of statement takes a report back if the statements in it do not. -/
theorem statementByKind_grows (most levels : Nat) {inner : Parser} (h : inner.Grows) :
    (statementByKind most levels inner).Grows := by
  intro s
  rw [statementByKind]
  split
  · exact conditional_grows levels h s
  · exact repetition_grows levels h s
  · exact output_grows levels s
  · exact block_grows most h s
  · exact assignment_grows levels s
  · exact s.advance_grows.trans (s.advance.report_grows _)

/-- A statement takes no report back, by induction on the levels that may be opened in it. -/
theorem statement_grows (most : Nat) : ∀ levels : Nat, (statement most levels).Grows
  | 0 => Parser.tooDeep_grows _
  | levels + 1 => (statementByKind_grows most levels (statement_grows most levels)).nested

/-- Reading the statements of a program takes no report back. -/
theorem program_grows (s : State) : s.reports <:+ (program s).2.reports :=
  statementList_grows (statement_grows _ _) _ s

end WhenLoop
