import WhenLoop.Proofs.Quiet

/-!
# What a parse does to its state

Everything a parser does to a state is made of few moves.  `State.Moves` lists those that happen
inside an expression or a condition, and `State.Works` those that happen inside a statement.  That
every parser keeps to them is shown once (`deeper_moves`, `statement_works`).  What holds of each
move then holds of every parse, whatever is wrong with the source.

Two things are recorded on the way because later arguments need them.

* A level of nesting is opened only if there is room for it, and it is closed again.  A parser
  that may open `levels` more levels runs in states with `depth + levels = maxNesting`.
* The token before the current one is reported on only inside a statement, that is, after the
  parse has stepped over a token and not yet recovered.  The index of `Works` says whether it
  has.

The first facts drawn from this are collected in `State.Onward`: the depth is the same in the end,
and what is left to read is an end piece of what was.  Another is that reports are counted
(`State.Accurate`).
-/

namespace WhenLoop

namespace State

/-! ## States in which a parse stands -/

/-- A state in which a parser may run.  The end token stands at the end only, no fault is
current, and behind the operator that passed the limit nothing is left to read. -/
structure Standing (s : State) : Prop where
  finish : s.finish.kind = .endOfInput
  ends : ∀ t, Item.token t ∈ s.upcoming → t.kind ≠ .endOfInput
  head : ∀ fault items, s.upcoming ≠ .fault fault :: items
  operators : s.operators ≤ maxOperators ∨ s.upcoming = []

variable {s s₁ s₂ : State}

/-- Before the end token the current token is the first of the upcoming items. -/
theorem Standing.upcoming_eq (h : s.Standing) (inside : s.current.kind ≠ .endOfInput) :
    ∃ items, s.upcoming = .token s.current :: items := by
  rw [current] at inside ⊢
  cases items : s.upcoming with
  | nil => simp [items, h.finish] at inside
  | cons item rest =>
      cases item with
      | fault fault => exact absurd items (h.head fault rest)
      | token t => exact ⟨rest, rfl⟩

/-- With nothing upcoming the end token is current. -/
theorem Standing.kind_of_nil (h : s.Standing) (none : s.upcoming = []) :
    s.current.kind = .endOfInput := by
  rw [current, none]
  exact h.finish

/-- The end token has nothing behind it. -/
theorem Standing.upcoming_of_end (h : s.Standing) (last : s.current.kind = .endOfInput) :
    s.upcoming = [] := by
  cases items : s.upcoming with
  | nil => rfl
  | cons item rest =>
      cases item with
      | fault fault => exact absurd items (h.head fault rest)
      | token t =>
          rw [current, items] at last
          exact absurd last (h.ends t (by simp [items]))

/-! ## What stepping keeps -/

/-- Stepping stops at a token or at the end, and never at a fault. -/
theorem skip_head (stop : Token → Token → Bool) (s : State) (items : List Item) :
    ∀ fault rest, (skip stop s items).upcoming ≠ .fault fault :: rest := by
  fun_induction skip stop s items with
  | case1 s =>
      intro fault rest same
      cases same
  | case2 s fault items ih => exact ih
  | case3 s token items stops =>
      intro fault rest same
      cases same
  | case4 s token items goesOn ih => exact ih

/-- What a parse never undoes: the depth is as before, and what is upcoming is an end piece of
what was. -/
structure Onward (s s' : State) : Prop where
  finish : s'.finish = s.finish
  depth : s'.depth = s.depth
  upcoming : s'.upcoming <:+ s.upcoming
  standing : s.Standing → s'.Standing

namespace Onward

theorem refl (s : State) : s.Onward s := ⟨rfl, rfl, List.suffix_rfl, id⟩

theorem trans (h : s.Onward s₁) (h' : s₁.Onward s₂) : s.Onward s₂ where
  finish := h'.finish.trans h.finish
  depth := h'.depth.trans h.depth
  upcoming := h'.upcoming.trans h.upcoming
  standing := h'.standing ∘ h.standing

theorem length_le (h : s.Onward s₁) : s₁.upcoming.length ≤ s.upcoming.length :=
  h.upcoming.length_le

/-- The depth inside a nested construct does not show outside of it. -/
theorem nested (h : Onward { s with depth := s.depth + 1 } s₁) :
    s.Onward { s₁ with depth := s₁.depth - 1 } where
  finish := h.finish
  depth := by
    have inside : s₁.depth = s.depth + 1 := h.depth
    rw [inside, Nat.add_sub_cancel]
  upcoming := h.upcoming
  standing := fun here =>
    have there := h.standing ⟨here.finish, here.ends, here.head, here.operators⟩
    ⟨there.finish, there.ends, there.head, there.operators⟩

end Onward

/-- Skipping stops at an end piece of the items it was given, whatever it stops at, and changes
neither the depth nor the end token. -/
theorem skip_onward (stop : Token → Token → Bool) (s : State) {items : List Item}
    (tail : items <:+ s.upcoming) : s.Onward (skip stop s items) where
  finish := skip_finish stop s items
  depth := skip_depth stop s items
  upcoming := (skip_upcoming_suffix stop s items).trans tail
  standing := fun here => {
    finish := by rw [skip_finish, here.finish]
    ends := fun t mem =>
      here.ends t (((skip_upcoming_suffix stop s items).trans tail).subset mem)
    head := skip_head stop s items
    operators := by
      rw [skip_operators]
      refine here.operators.imp_right fun none => ?_
      rw [none, List.suffix_nil] at tail
      rw [tail]
      rfl }

theorem report_onward (s : State) (r : Report) : s.Onward (s.report r) where
  finish := report_finish s r
  depth := report_depth s r
  upcoming := report_upcoming s r ▸ List.suffix_rfl
  standing := fun here => by
    refine ⟨?_, ?_, ?_, ?_⟩
    · rw [report_finish, here.finish]
    · rw [report_upcoming]; exact here.ends
    · rw [report_upcoming]; exact here.head
    · rw [report_operators, report_upcoming]; exact here.operators

/-- A step goes onward: it skips faults only. -/
theorem advance_onward (s : State) : s.Onward s.advance := by
  have step := skip_onward (fun _ _ => true) { s with previous := s.current }
    (List.tail_suffix s.upcoming)
  exact ⟨step.finish, step.depth, step.upcoming, fun here =>
    step.standing ⟨here.finish, here.ends, here.head, here.operators⟩⟩

/-- Away from the end, to step over a token leaves less to read. -/
theorem Standing.advance_lt (h : s.Standing) (inside : s.current.kind ≠ .endOfInput) :
    s.advance.upcoming.length < s.upcoming.length := by
  obtain ⟨items, same⟩ := h.upcoming_eq inside
  have rest : s.advance.upcoming <:+ s.upcoming.tail := skip_upcoming_suffix ..
  have shorter := rest.length_le
  rw [same, List.tail_cons] at shorter
  rw [same, List.length_cons]
  exact Nat.lt_succ_of_le shorter

/-- Behind a limit nothing is left to read. -/
theorem abort_upcoming (s : State) (problem : Problem) : (s.abort problem).upcoming = [] :=
  skip_never _ _

theorem abort_operators (s : State) (problem : Problem) :
    (s.abort problem).operators = s.operators := by
  rw [abort, skip_operators]
  exact report_operators s _

/-- To give up leaves nothing to read, so it does not matter how many operators there are. -/
theorem abort_onward (s : State) (problem : Problem) (operators : Nat) :
    s.Onward (abort { s with operators := operators } problem) where
  finish := by
    rw [abort, skip_finish]
    exact report_finish { s with operators := operators } _
  depth := by
    rw [abort, skip_depth]
    exact report_depth { s with operators := operators } _
  upcoming := by
    rw [abort_upcoming]
    exact List.nil_suffix
  standing := fun here => by
    refine ⟨?_, ?_, ?_, .inr (abort_upcoming _ _)⟩
    · rw [abort, skip_finish]
      exact (congrArg Token.kind (report_finish { s with operators := operators } _)).trans
        here.finish
    · rw [abort_upcoming]
      exact fun t mem => nomatch mem
    · rw [abort_upcoming]
      exact fun fault items => nofun

theorem recover_onward (s : State) : s.Onward s.recover := by
  rw [recover]
  split
  · exact .refl s
  · have step := skip_onward (resumes s.depth) { s with panicking := false }
      (List.suffix_refl s.upcoming)
    exact ⟨step.finish, step.depth, step.upcoming, fun here =>
      step.standing ⟨here.finish, here.ends, here.head, here.operators⟩⟩

/-! ## The moves -/

/-- What happens to a state inside an expression or a condition. -/
inductive Moves : State → State → Prop where
  | refl (s : State) : Moves s s
  | trans {s s₁ s₂ : State} : Moves s s₁ → Moves s₁ s₂ → Moves s s₂
  | advance (s : State) : Moves s s.advance
  | reportCurrent (s : State) (problem : Problem) : Moves s (s.reportCurrent problem)
  | reportPrevious (s : State) (problem : Problem) : Moves s (s.reportPrevious problem)
  | count (s : State) : s.operators < maxOperators →
      Moves s { s with operators := s.operators + 1 }
  | overflow (s : State) : maxOperators ≤ s.operators →
      Moves s (abort { s with operators := s.operators + 1 } .tooManyOperators)
  | refuse (s : State) : s.depth = maxNesting → Moves s (s.abort .nestingTooDeep)
  | nested {s s₁ : State} : s.depth < maxNesting → Moves { s with depth := s.depth + 1 } s₁ →
      Moves s { s₁ with depth := s₁.depth - 1 }

/-- What happens to a state inside a statement.  The index says whether the parse has stepped
over a token of the statement that it may still report on. -/
inductive Works : Bool → State → State → Prop where
  | refl {inside : Bool} (s : State) : Works inside s s
  | step {inside : Bool} {s s' : State} : Works true s.advance s' → Works inside s s'
  | phrase {s s₁ s' : State} : Moves s s₁ → Works true s₁ s' → Works true s s'
  | whole {s s' : State} : Works true { s with operators := 0 } s' → Works true s s'
  | reportCurrent {inside : Bool} {s s' : State} (problem : Problem) :
      Works inside (s.reportCurrent problem) s' → Works inside s s'
  | refuse {inside : Bool} {s s' : State} : s.depth = maxNesting →
      Works inside (s.abort .nestingTooDeep) s' → Works inside s s'
  | nested {inside : Bool} {s s₁ s' : State} : s.depth < maxNesting →
      Works inside { s with depth := s.depth + 1 } s₁ →
      Works false { s₁ with depth := s₁.depth - 1 } s' → Works inside s s'
  | recover {inside : Bool} {s s' : State} : s.panicking = true →
      Works false s.recover s' → Works inside s s'

/-- By induction on the moves.  A level that is opened is closed again, so the depth comes back. -/
theorem Moves.onward (h : s.Moves s₁) : s.Onward s₁ := by
  induction h with
  | refl s => exact .refl s
  | trans _ _ ih ih' => exact ih.trans ih'
  | advance s => exact s.advance_onward
  | reportCurrent s problem => exact s.report_onward _
  | reportPrevious s problem => exact s.report_onward _
  | count s le =>
      exact ⟨rfl, rfl, List.suffix_rfl, fun here => ⟨here.finish, here.ends, here.head, .inl le⟩⟩
  | overflow s _ => exact s.abort_onward _ _
  | refuse s _ => exact s.abort_onward _ _
  | nested _ _ ih => exact ih.nested

/-- Inside an expression no operator is forgotten. -/
theorem Moves.operators_le (h : s.Moves s₁) : s.operators ≤ s₁.operators := by
  induction h with
  | refl s => exact Nat.le_refl _
  | trans _ _ ih ih' => exact Nat.le_trans ih ih'
  | advance s => exact Nat.le_of_eq s.advance_operators.symm
  | reportCurrent s problem => exact Nat.le_of_eq (report_operators s _).symm
  | reportPrevious s problem => exact Nat.le_of_eq (report_operators s _).symm
  | count s _ => exact Nat.le_succ _
  | overflow s _ =>
      rw [abort_operators]
      exact Nat.le_succ _
  | refuse s _ => exact Nat.le_of_eq (s.abort_operators _).symm
  | nested _ _ ih => exact ih

/-- By induction on the work, as for moves. -/
theorem Works.onward {inside : Bool} (h : Works inside s s₁) : s.Onward s₁ := by
  induction h with
  | refl s => exact .refl s
  | step _ ih => exact (advance_onward _).trans ih
  | phrase moves _ ih => exact moves.onward.trans ih
  | whole _ ih =>
      exact ⟨ih.finish, ih.depth, ih.upcoming, fun here =>
        ih.standing ⟨here.finish, here.ends, here.head, .inl (Nat.zero_le _)⟩⟩
  | reportCurrent problem _ ih => exact (report_onward _ _).trans ih
  | refuse _ _ ih => exact (abort_onward _ _ _).trans ih
  | nested _ _ _ ih ih' => exact ih.nested.trans ih'
  | recover _ _ ih => exact (recover_onward _).trans ih

/-! ## Counting -/

/-- As many reports were counted as were made, and after a limit was passed the panic stays. -/
structure Accurate (s : State) : Prop where
  errors : s.errors = s.reports.length
  aborted : s.aborted = true → s.panicking = true

namespace Accurate

/-- A report that is made is counted, and one that is held back is not. -/
theorem report (h : s.Accurate) (r : Report) : (s.report r).Accurate := by
  refine ⟨?_, fun _ => report_panicking s r⟩
  rw [State.report]
  split
  · exact h.errors
  · exact congrArg (· + 1) h.errors

/-- Every fault that is skipped is a report, made or held back. -/
theorem skip (h : s.Accurate) (stop : Token → Token → Bool) (items : List Item) :
    (skip stop s items).Accurate := by
  fun_induction State.skip stop s items with
  | case1 s => exact ⟨h.errors, h.aborted⟩
  | case2 s fault items ih => exact ih (h.report _)
  | case3 s token items stops => exact ⟨h.errors, h.aborted⟩
  | case4 s token items goesOn ih => exact ih ⟨h.errors, h.aborted⟩

theorem advance (h : s.Accurate) : s.advance.Accurate := by
  have here : Accurate { s with previous := s.current } := ⟨h.errors, h.aborted⟩
  exact here.skip _ _

/-- Passing a limit makes a report unless there is a panic, and then there is one for good. -/
theorem abort (h : s.Accurate) (problem : Problem) : (s.abort problem).Accurate := by
  have here : Accurate { s.reportCurrent problem with aborted := true } :=
    ⟨(h.report _).errors, fun _ => report_panicking s _⟩
  exact here.skip _ _

/-- Recovery ends no panic that a limit started: after a limit it does nothing. -/
theorem recover (h : s.Accurate) : s.recover.Accurate := by
  rw [State.recover]
  split
  · exact h
  · rename_i goesOn
    have here : Accurate { s with panicking := false } :=
      ⟨h.errors, fun gaveUp => absurd gaveUp goesOn⟩
    exact here.skip _ _

end Accurate

/-- By induction on the moves: each of them is a step, a report, a level or a limit. -/
theorem Moves.accurate (h : s.Moves s₁) : s.Accurate → s₁.Accurate := by
  induction h with
  | refl s => exact id
  | trans _ _ ih ih' => exact ih' ∘ ih
  | advance s => exact Accurate.advance
  | reportCurrent s problem => exact fun here => here.report _
  | reportPrevious s problem => exact fun here => here.report _
  | count s _ => exact fun here => ⟨here.errors, here.aborted⟩
  | overflow s _ =>
      intro here
      have counted : Accurate { s with operators := s.operators + 1 } := ⟨here.errors, here.aborted⟩
      exact counted.abort _
  | refuse s _ => exact fun here => here.abort _
  | nested _ _ ih =>
      intro here
      have inside := ih ⟨here.errors, here.aborted⟩
      exact ⟨inside.errors, inside.aborted⟩

/-- By induction on the work: each part of it is a stretch of moves, a report or a recovery. -/
theorem Works.accurate {inside : Bool} (h : Works inside s s₁) : s.Accurate → s₁.Accurate := by
  induction h with
  | refl s => exact id
  | step _ ih => exact fun here => ih here.advance
  | phrase moves _ ih => exact fun here => ih (moves.accurate here)
  | whole _ ih => exact fun here => ih ⟨here.errors, here.aborted⟩
  | reportCurrent problem _ ih => exact fun here => ih (here.report _)
  | refuse _ _ ih => exact fun here => ih (here.abort _)
  | nested _ _ _ ih ih' =>
      intro here
      have inside := ih ⟨here.errors, here.aborted⟩
      exact ih' ⟨inside.errors, inside.aborted⟩
  | recover _ _ ih => exact fun here => ih here.recover

/-! ## What works do one after the other -/

/-- A statement that does not report on an earlier token may stand behind any other. -/
theorem Works.weaken (h : Works false s s₁) (inside : Bool) : Works inside s s₁ := by
  cases inside with
  | false => exact h
  | true =>
      generalize start : false = outside at h
      induction h with
      | refl s => exact .refl s
      | step rest _ => exact .step rest
      | phrase => cases start
      | whole => cases start
      | reportCurrent problem _ ih => exact .reportCurrent problem (ih start)
      | refuse deep _ ih => exact .refuse deep (ih start)
      | nested room _ rest ih _ => exact .nested room (ih start) rest
      | recover panic rest _ => exact .recover panic rest

/-- What follows a stretch of work joins it, by induction on the first stretch. -/
theorem Works.append {inside : Bool} (h : Works inside s s₁) (h' : Works false s₁ s₂) :
    Works inside s s₂ := by
  induction h with
  | refl s => exact h'.weaken _
  | step _ ih => exact .step (ih h')
  | phrase moves _ ih => exact .phrase moves (ih h')
  | whole _ ih => exact .whole (ih h')
  | reportCurrent problem _ ih => exact .reportCurrent problem (ih h')
  | refuse deep _ ih => exact .refuse deep (ih h')
  | nested room body _ _ ih => exact .nested room body (ih h')
  | recover panic _ ih => exact .recover panic (ih h')

/-- An expectation is a step if it is met and a report if it is not. -/
theorem expect_moves (s : State) (kind : TokenKind) (problem : Problem) :
    s.Moves (s.expect kind problem) := by
  rw [expect]
  split
  · exact .advance s
  · exact .reportCurrent s problem

theorem expect_works (s : State) (kind : TokenKind) (problem : Problem) :
    Works false s (s.expect kind problem) := by
  rw [expect]
  split
  · exact .step (.refl _)
  · exact .reportCurrent problem (.refl _)

/-- A report on a condition is a move, and no report is no move. -/
theorem reportCondition_moves (s : State) (problem : Problem) (node : Node) :
    s.Moves (s.reportCondition problem node) := by
  rw [reportCondition]
  split
  · exact .reportPrevious s problem
  · exact .refl s

end State

open State

/-! ## Parsers of expressions -/

namespace Parser

/-- A parser that makes only moves, in states where `levels` more levels may be opened. -/
def MovesAt (levels : Nat) (p : Parser) : Prop :=
  ∀ s : State, s.depth + levels = maxNesting → s.Moves (p s).2

variable {levels : Nat} {p : Parser}

/-- A parser runs where another one left off. -/
theorem MovesAt.after (h : p.MovesAt levels) {s s₁ : State} (moves : s.Moves s₁)
    (room : s.depth + levels = maxNesting) : s.Moves (p s₁).2 :=
  moves.trans (h s₁ (moves.onward.depth ▸ room))

/-- A nested parser opens a level that it closes, so it needs one more. -/
theorem MovesAt.nested (h : p.MovesAt levels) : p.nested.MovesAt (levels + 1) := by
  intro s room
  exact .nested (by omega) (h { s with depth := s.depth + 1 } (by simp only; omega))

/-- A counted parser counts its operator first, and gives up if that was one too many. -/
theorem MovesAt.counted (h : p.MovesAt levels) (node : Node) : (p.counted node).MovesAt levels := by
  intro s room
  simp only [Parser.counted]
  split
  · rename_i le
    exact h.after (.count s le) room
  · rename_i gt
    exact .overflow s (Nat.le_of_lt_succ (Nat.lt_of_not_le gt))

theorem tooDeep_movesAt (node : Node) : (tooDeep node).MovesAt 0 :=
  fun s room => .refuse s room

end Parser

namespace Rung

variable {rung : Rung} {operand : Parser} {levels : Nat}

/-- Checking an operand makes at most a report. -/
theorem checkOperand_moves (rung : Rung) (s : State) (node : Node) :
    s.Moves (rung.checkOperand s node) := by
  rw [checkOperand]
  split
  · exact s.reportCondition_moves _ _
  · exact .refl s

/-- By recursion on the operators that may still come. -/
theorem chain_movesAt (h : operand.MovesAt levels) :
    ∀ (most : Nat) (left : Node), (rung.chain operand most left).MovesAt levels
  | 0, _ => fun s _ => .refl s
  | most + 1, left => by
      intro s room
      cases joins : rung.join? s.current.kind with
      | none =>
          rw [chain_of_none joins]
          exact .refl s
      | some join =>
          rw [chain_of_some joins]
          have goesOn : (rung.link operand most join left).MovesAt levels := fun s room =>
            (chain_movesAt h most _).after
              ((h.after (rung.checkOperand_moves s left) room).trans (checkOperand_moves ..)) room
          exact (goesOn.counted left).after (.advance s) room

theorem many_movesAt (h : operand.MovesAt levels) : (rung.many operand).MovesAt levels :=
  fun s room => (chain_movesAt h _ _).after (h s room) room

theorem once_movesAt (h : operand.MovesAt levels) : (rung.once operand).MovesAt levels :=
  fun s room => (chain_movesAt h _ _).after (h s room) room

end Rung

namespace Deeper

/-- The parsers make only moves, in states where `levels` more levels may be opened. -/
structure MovesAt (d : Deeper) (levels : Nat) : Prop where
  group : d.group.MovesAt levels
  negation : d.negation.MovesAt levels
  negative : d.negative.MovesAt levels

variable {d : Deeper} {levels : Nat}

/-- An operand steps over its token, and a group parses what it holds one level deeper. -/
theorem MovesAt.primary (h : d.MovesAt levels) : d.primary.MovesAt levels := by
  intro s room
  rw [Deeper.primary]
  split
  · split
    · exact .advance s
    · exact (Moves.advance s).trans (.reportPrevious _ _)
  · exact .advance s
  · exact (h.group.after (.advance s) room).trans (expect_moves _ _ _)
  · exact (Moves.advance s).trans (.reportPrevious _ _)

/-- A sign opens a level, and without one there is an operand. -/
theorem MovesAt.signed (h : d.MovesAt levels) : d.signed.MovesAt levels := by
  intro s room
  rw [Deeper.signed]
  split
  · exact (h.negative.counted _).after (.advance s) room
  · exact h.primary s room

theorem MovesAt.comparison (h : d.MovesAt levels) : d.comparison.MovesAt levels :=
  Rung.once_movesAt (Rung.many_movesAt (Rung.many_movesAt h.signed))

/-- As with a sign, `not` opens a level. -/
theorem MovesAt.negated (h : d.MovesAt levels) : d.negated.MovesAt levels := by
  intro s room
  rw [Deeper.negated]
  split
  · exact (h.negation.counted _).after (.advance s) room
  · exact h.comparison s room

theorem MovesAt.ladder (h : d.MovesAt levels) : d.ladder.MovesAt levels :=
  Rung.many_movesAt (Rung.many_movesAt h.negated)

theorem MovesAt.next (h : d.MovesAt levels) : d.next.MovesAt (levels + 1) where
  group := h.ladder.nested
  negation := h.negated.nested
  negative := fun s room => (h.signed.nested s room).trans (reportCondition_moves _ _ _)

end Deeper

/-- At every depth the parsers make only moves, by recursion on the levels that are left. -/
theorem deeper_moves : ∀ levels : Nat, (deeper levels).MovesAt levels
  | 0 => ⟨Parser.tooDeep_movesAt _, Parser.tooDeep_movesAt _, Parser.tooDeep_movesAt _⟩
  | levels + 1 => (deeper_moves levels).next

/-! ## Parsers of statements -/

/-- A whole expression is read inside a statement. -/
theorem expression_works {levels : Nat} {s s' : State} (room : s.depth + levels = maxNesting)
    (rest : Works true (expression levels s).2 s') : Works true s s' := by
  have moves := (deeper_moves levels).group { s with operators := 0 } room
  exact .whole (.phrase (moves.trans (reportCondition_moves _ _ _)) rest)

/-- A whole condition is read inside a statement. -/
theorem condition_works {levels : Nat} {s s' : State} (room : s.depth + levels = maxNesting)
    (rest : Works true (condition levels s).2 s') : Works true s s' :=
  .whole (.phrase ((deeper_moves levels).group { s with operators := 0 } room) rest)

namespace Parser

/-- A parser that does to a state only what may happen inside a statement. -/
def WorksAt (levels : Nat) (p : Parser) : Prop :=
  ∀ s : State, s.depth + levels = maxNesting → Works false s (p s).2

/-- A parser that steps over a token and then goes on inside the statement. -/
def StartsAt (levels : Nat) (p : Parser) : Prop :=
  ∀ s : State, s.depth + levels = maxNesting → Works true s.advance (p s).2

variable {levels : Nat} {p : Parser}

/-- A parser that runs behind some work adds to it. -/
theorem WorksAt.after (h : p.WorksAt levels) {inside : Bool} {s s₁ : State}
    (works : Works inside s s₁) (room : s.depth + levels = maxNesting) :
    Works inside s (p s₁).2 :=
  works.append (h s₁ (works.onward.depth ▸ room))

end Parser

/-- A statement that panics recovers, and one that does not is left as it is. -/
theorem recovering_worksAt {levels : Nat} {p : Parser} (h : p.WorksAt levels) :
    (recovering p).WorksAt levels := by
  intro s room
  have read := h s room
  rw [recovering]
  dsimp only
  split
  · rename_i panic
    exact read.append (.recover panic (.refl _))
  · exact read

/-- By recursion on the items left to read: a statement, and then the list behind it. -/
theorem statementList_works {stop : TokenKind → Bool} {levels : Nat} {p : Parser}
    (h : p.WorksAt levels) :
    ∀ (most : Nat) (s : State), s.depth + levels = maxNesting →
      Works false s (statementList stop p most s).2
  | 0, s, _ => .refl s
  | most + 1, s, room => by
      rw [statementList]
      split
      · exact .refl s
      · have first := recovering_worksAt h s room
        exact first.append (statementList_works h most _ (first.onward.depth ▸ room))

section Statement

variable {levels : Nat}

theorem assignment_startsAt : (assignment levels).StartsAt levels := by
  intro s room
  have sign := s.advance.expect_moves .assign .expectedAssign
  have room' := (s.advance_onward.trans sign.onward).depth ▸ room
  exact .phrase sign (expression_works room' (.phrase (expect_moves _ _ _) (.refl _)))

theorem output_startsAt : (output levels).StartsAt levels := by
  intro s room
  have room' := s.advance_onward.depth ▸ room
  exact expression_works room' (.phrase (expect_moves _ _ _) (.refl _))

theorem guardOf_startsAt (kind : Guarded) : (guardOf kind levels).StartsAt levels := by
  intro s room
  have sign := s.advance.expect_moves .openParen (.expectedOpenParen kind)
  have room' := (s.advance_onward.trans sign.onward).depth ▸ room
  exact .phrase sign (condition_works room' (.phrase (expect_moves _ _ _) (.refl _)))

variable {inner : Parser} (h : inner.WorksAt levels)
include h

/-- The head, the guard and one or two branches, each behind the other. -/
theorem conditional_startsAt : (conditional levels inner).StartsAt levels := by
  intro s room
  have room' := s.advance_onward.depth ▸ room
  have branch := h.after (guardOf_startsAt .when s room) room'
  rw [conditional]
  dsimp only
  split
  · exact h.after (branch.append (.step (.refl _))) room'
  · exact branch

theorem repetition_startsAt : (repetition levels inner).StartsAt levels :=
  fun s room => h.after (guardOf_startsAt .loop s room) (s.advance_onward.depth ▸ room)

/-- The brace, the statements up to the other brace, and the expectation of that one. -/
theorem block_startsAt (most : Nat) : (block most inner).StartsAt levels := by
  intro s room
  have list : Works false s.advance (statementList (· = .closeBrace) inner most s.advance).2 :=
    statementList_works h most _ (s.advance_onward.depth ▸ room)
  exact (list.weaken true).append (expect_works _ _ _)

/-- Whatever the first token is, the parser steps over it. -/
theorem statementByKind_startsAt (most : Nat) :
    (statementByKind most levels inner).StartsAt levels := by
  intro s room
  rw [statementByKind]
  split
  · exact conditional_startsAt h s room
  · exact repetition_startsAt h s room
  · exact output_startsAt s room
  · exact block_startsAt h most s room
  · exact assignment_startsAt s room
  · exact .phrase (.reportPrevious _ _) (.refl _)

end Statement

/-- By recursion on the levels left to open.  Without one the statement is refused. -/
theorem statement_works (most : Nat) : ∀ levels : Nat, (statement most levels).WorksAt levels
  | 0 => fun s room => .refuse room (.refl _)
  | levels + 1 => by
      intro s room
      have body := statementByKind_startsAt (statement_works most levels) most
        { s with depth := s.depth + 1 } (by simp only; omega)
      exact .nested (by omega) (.step body) (.refl _)

/-! ## Programs -/

@[simp]
theorem State.ofScan_depth (scan : Scan) : (ofScan scan).depth = 0 :=
  skip_depth ..

@[simp]
theorem State.ofScan_finish (scan : Scan) : (ofScan scan).finish = scan.finish :=
  skip_finish ..

theorem State.ofScan_standing {scan : Scan} (ended : scan.Ended) : (ofScan scan).Standing where
  finish := by rw [ofScan_finish, ended.finish]
  ends := fun t mem => ended.items t ((skip_upcoming_suffix ..).subset mem)
  head := skip_head _ _ _
  operators := .inl (by rw [ofScan, skip_operators]; exact Nat.zero_le _)

theorem State.ofScan_accurate (scan : Scan) : (ofScan scan).Accurate := by
  refine Accurate.skip ⟨rfl, fun gaveUp => ?_⟩ _ _
  cases gaveUp

/-- All statements of a program are read outside of any other. -/
theorem program_works {s : State} (outer : s.depth = 0) : Works false s (program s).2 :=
  statementList_works (statement_works _ _) _ s (by rw [outer, Nat.zero_add])

end WhenLoop
