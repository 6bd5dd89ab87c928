import WhenLoop.Proofs.Growth

/-!
# Earlier reports are not looked at

What a parser reads, and what it reports, does not depend on what was reported before.  A state
with more reports behind its own is `State.plus`, and every parser commutes with it
(`Parser.Ignores`).  So what is known of a parse without reports holds behind any statement that
was reported on, once the parse has recovered.
-/

namespace WhenLoop

namespace State

/-- The state with reports before its own, and their count. -/
def plus (s : State) (earlier : List Report) (errors : Nat) : State :=
  { s with reports := s.reports ++ earlier, errors := s.errors + errors }

/-- The state as if nothing had been reported. -/
def forget (s : State) : State :=
  { s with reports := [], errors := 0 }

variable (s : State) (earlier : List Report) (errors : Nat)

/-- A state is what it is without its earlier reports, and these put back. -/
theorem forget_plus : s.forget.plus s.reports s.errors = s := by
  rw [plus, forget, Nat.zero_add]
  rfl

@[simp]
theorem plus_current : (s.plus earlier errors).current = s.current := rfl

@[simp]
theorem plus_atEnd : (s.plus earlier errors).atEnd = s.atEnd := rfl

/-- Whether something is reported depends on the panic, and not on what was reported before. -/
@[simp]
theorem report_plus (r : Report) :
    (s.plus earlier errors).report r = (s.report r).plus earlier errors := by
  rw [report, report]
  split
  · rename_i panic
    rw [if_pos (by exact panic)]
  · rename_i calm
    rw [if_neg (by exact calm), plus, plus, Nat.add_right_comm]
    rfl

/-- Stepping over tokens and faults does not look at earlier reports. -/
@[simp]
theorem skip_plus (stop : Token → Token → Bool) (items : List Item) :
    skip stop (s.plus earlier errors) items = (skip stop s items).plus earlier errors := by
  induction items generalizing s with
  | nil => rfl
  | cons item items ih =>
      cases item with
      | fault found => rw [skip, skip, report_plus, ih]
      | token t =>
          rw [skip, skip]
          split
          · rename_i stops
            rw [if_pos (by exact stops)]
            rfl
          · rename_i goesOn
            rw [if_neg (by exact goesOn)]
            exact ih { s with previous := t }

@[simp]
theorem advance_plus : (s.plus earlier errors).advance = s.advance.plus earlier errors :=
  skip_plus { s with previous := s.current } earlier errors _ _

@[simp]
theorem expect_plus (kind : TokenKind) (problem : Problem) :
    (s.plus earlier errors).expect kind problem = (s.expect kind problem).plus earlier errors := by
  rw [expect, expect, plus_current]
  split
  · exact s.advance_plus earlier errors
  · exact s.report_plus earlier errors _

@[simp]
theorem abort_plus (problem : Problem) :
    (s.plus earlier errors).abort problem = (s.abort problem).plus earlier errors := by
  have reported := s.report_plus earlier errors (.atToken s.current problem)
  rw [abort, abort, reportCurrent, plus_current, reported]
  exact skip_plus { s.reportCurrent problem with aborted := true } earlier errors _ _

/-- Recovery does not look at earlier reports. -/
@[simp]
theorem recover_plus : (s.plus earlier errors).recover = s.recover.plus earlier errors := by
  rw [recover, recover]
  split
  · rename_i gaveUp
    rw [if_pos (by exact gaveUp)]
  · rename_i goesOn
    rw [if_neg (by exact goesOn)]
    exact skip_plus { s with panicking := false } earlier errors _ _

@[simp]
theorem reportCondition_plus (problem : Problem) (node : Node) :
    (s.plus earlier errors).reportCondition problem node =
      (s.reportCondition problem node).plus earlier errors := by
  rw [reportCondition, reportCondition]
  split
  · exact s.report_plus earlier errors _
  · rfl

end State

open State

variable {earlier : List Report} {errors : Nat}

/-! ## Parsers of expressions -/

namespace Parser

/-- A parser that does not look at earlier reports. -/
def Ignores (earlier : List Report) (errors : Nat) (p : Parser) : Prop :=
  ∀ s, p (s.plus earlier errors) = ((p s).1, (p s).2.plus earlier errors)

variable {p : Parser}

theorem Ignores.nested (h : p.Ignores earlier errors) : p.nested.Ignores earlier errors := by
  intro s
  have inside := h { s with depth := s.depth + 1 }
  exact congrArg (fun read : Node × State => (read.1, { read.2 with depth := read.2.depth - 1 }))
    inside

theorem tooDeep_ignores (node : Node) : (tooDeep node).Ignores earlier errors :=
  fun s => congrArg (Prod.mk node) (s.abort_plus earlier errors _)

/-- Counting an operator ignores earlier reports, within the limit and past it. -/
theorem Ignores.counted (h : p.Ignores earlier errors) (node : Node) :
    (p.counted node).Ignores earlier errors := by
  intro s
  simp only [Parser.counted]
  split
  · rename_i le
    rw [if_pos (by exact le)]
    exact h { s with operators := s.operators + 1 }
  · rename_i gt
    rw [if_neg (by exact gt)]
    exact congrArg (Prod.mk node)
      (abort_plus { s with operators := s.operators + 1 } earlier errors _)

end Parser

namespace Rung

variable {rung : Rung} {operand : Parser}

@[simp]
theorem checkOperand_plus (rung : Rung) (s : State) (earlier : List Report) (errors : Nat)
    (node : Node) :
    rung.checkOperand (s.plus earlier errors) node =
      (rung.checkOperand s node).plus earlier errors := by
  rw [checkOperand, checkOperand]
  split
  · exact s.reportCondition_plus earlier errors _ _
  · rfl

/-- A chain ignores earlier reports, by induction on its bound. -/
theorem chain_ignores (h : operand.Ignores earlier errors) :
    ∀ (most : Nat) (left : Node), (rung.chain operand most left).Ignores earlier errors
  | 0, _ => fun _ => rfl
  | most + 1, left => by
      intro s
      cases joins : rung.join? s.current.kind with
      | none => rw [chain_of_none joins, chain_of_none (by exact joins)]
      | some join =>
          have goesOn : (rung.link operand most join left).Ignores earlier errors := by
            intro s
            rw [link, link, checkOperand_plus, h, checkOperand_plus]
            exact chain_ignores h most _ _
          rw [chain_of_some joins, chain_of_some (by exact joins), advance_plus]
          exact goesOn.counted left s.advance

theorem many_ignores (h : operand.Ignores earlier errors) :
    (rung.many operand).Ignores earlier errors := by
  intro s
  rw [many, many, h]
  exact chain_ignores h _ _ _

theorem once_ignores (h : operand.Ignores earlier errors) :
    (rung.once operand).Ignores earlier errors := by
  intro s
  rw [once, once, h]
  exact chain_ignores h _ _ _

end Rung

namespace Deeper

/-- None of the parsers looks at earlier reports. -/
structure Ignores (earlier : List Report) (errors : Nat) (d : Deeper) : Prop where
  group : d.group.Ignores earlier errors
  negation : d.negation.Ignores earlier errors
  negative : d.negative.Ignores earlier errors

variable {d : Deeper}

/-- A primary ignores earlier reports if a group does. -/
theorem Ignores.primary (h : d.Ignores earlier errors) : d.primary.Ignores earlier errors := by
  intro s
  rw [Deeper.primary, Deeper.primary, plus_current]
  split
  · split
    · rw [advance_plus]
    · rw [advance_plus]
      exact congrArg (Prod.mk _) (s.advance.report_plus earlier errors _)
  · rw [advance_plus]
  · rw [advance_plus, h.group]
    exact congrArg (Prod.mk _) (expect_plus _ earlier errors _ _)
  · rw [advance_plus]
    exact congrArg (Prod.mk _) (s.advance.report_plus earlier errors _)

theorem Ignores.signed (h : d.Ignores earlier errors) : d.signed.Ignores earlier errors := by
  intro s
  rw [Deeper.signed, Deeper.signed, plus_current]
  split
  · rw [advance_plus]
    exact h.negative.counted _ s.advance
  · exact h.primary s

theorem Ignores.comparison (h : d.Ignores earlier errors) :
    d.comparison.Ignores earlier errors :=
  Rung.once_ignores (Rung.many_ignores (Rung.many_ignores h.signed))

theorem Ignores.negated (h : d.Ignores earlier errors) : d.negated.Ignores earlier errors := by
  intro s
  rw [Deeper.negated, Deeper.negated, plus_current]
  split
  · rw [advance_plus]
    exact h.negation.counted _ s.advance
  · exact h.comparison s

theorem Ignores.ladder (h : d.Ignores earlier errors) : d.ladder.Ignores earlier errors :=
  Rung.many_ignores (Rung.many_ignores h.negated)

theorem Ignores.next (h : d.Ignores earlier errors) : d.next.Ignores earlier errors where
  group := h.ladder.nested
  negation := fun s => by rw [next_negation, next_negation, h.negated.nested]
  negative := fun s => by
    rw [next_negative, next_negative, h.signed.nested, reportCondition_plus]

end Deeper

/-- The parsers inside any number of levels ignore earlier reports. -/
theorem deeper_ignores : ∀ levels : Nat, (deeper levels).Ignores earlier errors
  | 0 => ⟨Parser.tooDeep_ignores _, Parser.tooDeep_ignores _, Parser.tooDeep_ignores _⟩
  | levels + 1 => (deeper_ignores levels).next

/-! ## Parsers of statements -/

/-- A whole expression ignores earlier reports. -/
theorem expression_ignores (levels : Nat) : (expression levels).Ignores earlier errors := by
  intro s
  have group : (deeper levels).group { s.plus earlier errors with operators := 0 } = _ :=
    (deeper_ignores levels).group { s with operators := 0 }
  rw [expression_eq, expression_eq, group, reportCondition_plus]

theorem condition_ignores (levels : Nat) : (condition levels).Ignores earlier errors := by
  intro s
  have group : (deeper levels).group { s.plus earlier errors with operators := 0 } = _ :=
    (deeper_ignores levels).group { s with operators := 0 }
  rw [condition, condition, group]

/-- A statement with its recovery ignores earlier reports, since both look at the panic only. -/
theorem recovering_ignores {p : Parser} (h : p.Ignores earlier errors) :
    (recovering p).Ignores earlier errors := by
  intro s
  simp only [recovering, h s]
  split
  · rename_i panic
    rw [if_pos (by exact panic), recover_plus]
  · rename_i calm
    rw [if_neg (by exact calm)]

/-- A list of statements ignores earlier reports, by induction on its bound. -/
theorem statementList_ignores {stop : TokenKind → Bool} {p : Parser}
    (h : p.Ignores earlier errors) : ∀ (most : Nat) (s : State),
      statementList stop p most (s.plus earlier errors) =
        ((statementList stop p most s).1, (statementList stop p most s).2.plus earlier errors)
  | 0, _ => rfl
  | most + 1, s => by
      rw [statementList, statementList, plus_atEnd, plus_current]
      split
      · rfl
      · simp only [recovering_ignores h s, statementList_ignores h most]

theorem assignment_ignores (levels : Nat) : (assignment levels).Ignores earlier errors := by
  intro s
  simp only [assignment, plus_current, advance_plus, expect_plus, expression_ignores levels _]

theorem output_ignores (levels : Nat) : (output levels).Ignores earlier errors := by
  intro s
  simp only [output, advance_plus, expression_ignores levels _, expect_plus]

theorem guardOf_ignores (kind : Guarded) (levels : Nat) :
    (guardOf kind levels).Ignores earlier errors := by
  intro s
  simp only [guardOf, advance_plus, expect_plus, condition_ignores levels _]

section Statement

variable {inner : Parser} (h : inner.Ignores earlier errors)
include h

/-- A conditional ignores earlier reports if its branches do. -/
theorem conditional_ignores (levels : Nat) :
    (conditional levels inner).Ignores earlier errors := by
  intro s
  simp only [conditional, guardOf_ignores .when levels _, h _, plus_current]
  split
  · rw [advance_plus, h]
  · rfl

theorem repetition_ignores (levels : Nat) :
    (repetition levels inner).Ignores earlier errors := by
  intro s
  simp only [repetition, guardOf_ignores .loop levels _, h _]

theorem block_ignores (most : Nat) : (block most inner).Ignores earlier errors := by
  intro s
  simp only [block, advance_plus, statementList_ignores h, expect_plus]

/-- Every kind of statement ignores earlier reports if the statements in it do. -/
theorem statementByKind_ignores (most levels : Nat) :
    (statementByKind most levels inner).Ignores earlier errors := by
  intro s
  simp only [statementByKind, plus_current]
  split
  · exact conditional_ignores h levels s
  · exact repetition_ignores h levels s
  · exact output_ignores levels s
  · exact block_ignores h most s
  · exact assignment_ignores levels s
  · rw [advance_plus]
    exact congrArg (Prod.mk _) (s.advance.report_plus earlier errors _)

end Statement

/-- A statement ignores earlier reports, by induction on the levels that may be opened in it. -/
theorem statement_ignores (most : Nat) :
    ∀ levels : Nat, (statement most levels).Ignores earlier errors
  | 0 => Parser.tooDeep_ignores _
  | levels + 1 =>
      (statementByKind_ignores (statement_ignores most levels) most levels).nested

end WhenLoop
